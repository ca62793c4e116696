import Proveno.Types.Table

/-! The heap behind table references and captured variables, and the values a
host or the decoder builds before they are placed in it. -/

namespace Proveno

structure Heap where
  tables : List (LuaTable LuaValue)
  cells : List LuaValue

namespace Heap

def empty : Heap := ⟨[], []⟩

def table (h : Heap) (r : TableRef) : LuaTable LuaValue := h.tables.getD r LuaTable.new

def setTable (h : Heap) (r : TableRef) (t : LuaTable LuaValue) : Heap :=
  { h with tables := h.tables.set r t }

def allocTable (h : Heap) (t : LuaTable LuaValue) : TableRef × Heap :=
  (h.tables.length, { h with tables := h.tables ++ [t] })

def cell (h : Heap) (c : CellRef) : LuaValue := h.cells.getD c .nil

def setCell (h : Heap) (c : CellRef) (v : LuaValue) : Heap :=
  { h with cells := h.cells.set c v }

def allocCell (h : Heap) (v : LuaValue) : CellRef × Heap :=
  (h.cells.length, { h with cells := h.cells ++ [v] })

/-- Nothing in the first heap is gone from the second. -/
structure Grows (h h' : Heap) : Prop where
  tables : h.tables.length ≤ h'.tables.length
  cells : h.cells.length ≤ h'.cells.length

/-- Every table was built by the table operations. -/
def Reachable (h : Heap) : Prop := ∀ t ∈ h.tables, t.Reachable

theorem Reachable.table {h : Heap} (hh : h.Reachable) (r : TableRef) :
    (h.table r).Reachable := by
  rw [Heap.table, List.getD_eq_getElem?_getD]
  cases hr : h.tables[r]? with
  | none => exact .new
  | some t => exact hh t (List.mem_of_getElem? hr)

theorem table_setTable (h : Heap) (r r' : TableRef) (t : LuaTable LuaValue) :
    (h.setTable r t).table r' =
      if r' = r ∧ r < h.tables.length then t else h.table r' := by
  simp only [table, setTable, List.getD_eq_getElem?_getD, List.getElem?_set]
  by_cases heq : r = r'
  · subst heq
    by_cases hlt : r < h.tables.length
    · simp [hlt]
    · simp [hlt]
  · simp [heq, Ne.symm heq]

end Heap

/-- A value that owns its tables. `live` refers to what the heap already has. -/
inductive OwnedValue
  | nil
  | boolean (b : Bool)
  | integer (n : Int64)
  | string (s : Bytes)
  | table (t : LuaTable OwnedValue)
  | live (v : LuaValue)

instance : HasNil OwnedValue where
  isNil
    | .nil | .live .nil => true
    | _ => false

mutual

/-- Place a value in the heap, the tables within it before those that hold them. -/
def OwnedValue.install : OwnedValue → Heap → LuaValue × Heap
  | .nil, h => (.nil, h)
  | .boolean b, h => (.boolean b, h)
  | .integer n, h => (.integer n, h)
  | .string s, h => (.string s, h)
  | .table t, h =>
    let (t', h) := installTable t h
    let (r, h) := h.allocTable t'
    (.table r, h)
  | .live v, h => (v, h)

def installTable : LuaTable OwnedValue → Heap → LuaTable LuaValue × Heap
  | ⟨array, hash, entryCount, hashCapacity⟩, h =>
    let (array, h) := installArray array h
    let (hash, h) := installHash hash h
    (⟨array, hash, entryCount, hashCapacity⟩, h)

def installArray : List OwnedValue → Heap → List LuaValue × Heap
  | [], h => ([], h)
  | v :: vs, h =>
    let (v', h) := v.install h
    let (vs', h) := installArray vs h
    (v' :: vs', h)

def installHash : List (LuaKey × OwnedValue) → Heap → List (LuaKey × LuaValue) × Heap
  | [], h => ([], h)
  | (key, v) :: entries, h =>
    let (v', h) := v.install h
    let (entries', h) := installHash entries h
    ((key, v') :: entries', h)

end

namespace Heap.Grows

theorem refl (h : Heap) : h.Grows h := ⟨le_rfl, le_rfl⟩

theorem trans {h h' h'' : Heap} (hg : h.Grows h') (hg' : h'.Grows h'') : h.Grows h'' :=
  ⟨hg.tables.trans hg'.tables, hg.cells.trans hg'.cells⟩

theorem allocTable (t : LuaTable LuaValue) (h : Heap) : h.Grows (h.allocTable t).2 :=
  ⟨by simp [Heap.allocTable], le_rfl⟩

end Heap.Grows

mutual

theorem OwnedValue.install_grows : ∀ (v : OwnedValue) (h : Heap), h.Grows (v.install h).2
  | .nil, h | .boolean _, h | .integer _, h | .string _, h | .live _, h => .refl h
  | .table t, h => (installTable_grows t h).trans (.allocTable _ _)

theorem installTable_grows : ∀ (t : LuaTable OwnedValue) (h : Heap), h.Grows (installTable t h).2
  | ⟨array, hash, _, _⟩, h => (installArray_grows array h).trans (installHash_grows hash _)

theorem installArray_grows : ∀ (vs : List OwnedValue) (h : Heap), h.Grows (installArray vs h).2
  | [], h => .refl h
  | v :: vs, h => (v.install_grows h).trans (installArray_grows vs _)

theorem installHash_grows :
    ∀ (entries : List (LuaKey × OwnedValue)) (h : Heap), h.Grows (installHash entries h).2
  | [], h => .refl h
  | (_, v) :: entries, h => (v.install_grows h).trans (installHash_grows entries _)

end

end Proveno
