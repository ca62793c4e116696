import Proveno.Vm.JsonDocument
import Proveno.Vm.JsonParsing

/-! The value of a document, built with the tables of the machine. Whether it can be built
depends on the document alone, not on how its numbers are read. -/

namespace Proveno.Vm.Json

open LuaTable

instance : HasNil Doc where
  isNil
    | .null => true
    | _ => false

mutual

/-- Every number of the document can be read. -/
def Doc.Admits (mode : NumberMode) : Doc → Prop
  | .number text =>
    match mode with
    | .integer => ∃ n, parseI64 text = some n
    | .verbatim => True
  | .table entries => entries.Admits mode
  | _ => True

def Entries.Admits (mode : NumberMode) : Entries → Prop
  | .nil => True
  | .cons _ doc rest => doc.Admits mode ∧ rest.Admits mode

end

mutual

/-- The text of every number can be kept. -/
theorem Doc.admits_verbatim : ∀ doc : Doc, doc.Admits .verbatim
  | .table entries => entries.admits_verbatim
  | .null | .boolean _ | .string _ | .number _ => trivial

theorem Entries.admits_verbatim : ∀ entries : Entries, entries.Admits .verbatim
  | .nil => trivial
  | .cons _ doc rest => ⟨doc.admits_verbatim, rest.admits_verbatim⟩

end

/-- The table after the entries are written to it one by one. -/
def Entries.storedIn (docs : LuaTable Doc) : Entries → LuaTable Doc
  | .nil => docs
  | .cons key doc rest => rest.storedIn (docs.rawsetTracked key doc).2

/-- The table that the entries stand for: the last of a key counts, and null is none. -/
def Entries.docs (entries : Entries) : LuaTable Doc := entries.storedIn new

mutual

/-- No table of the document goes over the cap on entries. -/
def Doc.Fits : Doc → Prop
  | .table entries => entries.FitsIn new
  | _ => True

def Entries.FitsIn (docs : LuaTable Doc) : Entries → Prop
  | .nil => True
  | .cons key doc rest => doc.Fits ∧ (∃ result, (docs.rawsetTracked key doc).1 = .ok result) ∧
      rest.FitsIn (docs.rawsetTracked key doc).2

end

/-- What a write costs that ends this way. -/
def writeCost (result : Except LuaError RawsetResult) (oldCap : Nat) : Nat :=
  match result with
  | .ok (.inserted grew newHashCapacity) =>
    if grew then (newHashCapacity - oldCap) * AllocSize.tableHashSlot
    else AllocSize.tableArraySlot
  | _ => 0

def keyCost : LuaKey → Nat
  | .string s => AllocSize.string s.length
  | _ => 0

mutual

/-- The memory that the value takes. -/
def Doc.cost (mode : NumberMode) : Doc → Nat
  | .string text => AllocSize.string text.length
  | .number text =>
    match mode with
    | .integer => 0
    | .verbatim => AllocSize.string text.length
  | .table entries => AllocSize.tableBase + entries.cost mode new
  | _ => 0

def Entries.cost (mode : NumberMode) (docs : LuaTable Doc) : Entries → Nat
  | .nil => 0
  | .cons key doc rest => keyCost key + (doc.cost mode +
      (writeCost (docs.rawsetTracked key doc).1 docs.capacity +
        rest.cost mode (docs.rawsetTracked key doc).2))

end

def payKey : LuaKey → Vm Unit
  | .string s => trackAlloc (AllocSize.string s.length)
  | _ => pure ()

mutual

/-- The value of the document, as the decoder builds it. -/
def Doc.build (mode : NumberMode) : Doc → Vm LuaValue
  | .null => pure .nil
  | .boolean b => pure (.boolean b)
  | .string text => do
    trackAlloc (AllocSize.string text.length)
    pure (.string text)
  | .number text =>
    match mode with
    | .integer =>
      match parseI64 text with
      | some n => pure (.integer n)
      | none => jsonErr "json.decode: number out of i64 range"
    | .verbatim => do
      trackAlloc (AllocSize.string text.length)
      pure (.string text)
  | .table entries => do
    let t ← newTable
    entries.fill mode t
    pure (.table t)

def Entries.fill (mode : NumberMode) (t : TableRef) : Entries → Vm Unit
  | .nil => pure ()
  | .cons key doc rest => do
    payKey key
    let v ← doc.build mode
    rawsetCharged t key v
    rest.fill mode t

end

/-- The value stands for the document, with tables from `lo` on that have the shape of the
tables of the document. -/
inductive Represents (mode : NumberMode) (h : Heap) (lo : Nat) : Doc → LuaValue → Prop
  | null : Represents mode h lo .null .nil
  | boolean (b : Bool) : Represents mode h lo (.boolean b) (.boolean b)
  | string (text : Bytes) : Represents mode h lo (.string text) (.string text)
  | integer {text : Bytes} {n : Int64} (hmode : mode = .integer) (hn : parseI64 text = some n) :
      Represents mode h lo (.number text) (.integer n)
  | verbatim (text : Bytes) (hmode : mode = .verbatim) :
      Represents mode h lo (.number text) (.string text)
  | table {entries : Entries} {r : TableRef} (hlo : lo ≤ r) (hlt : r < h.tables.length)
      (hshape : (entries.docs.map fun _ => ()) = (h.table r).map fun _ => ())
      (hvalues : ∀ key doc v, entries.docs.get key = some doc → (h.table r).get key = some v →
        Represents mode h lo doc v) : Represents mode h lo (.table entries) (.table r)

namespace Represents

variable {mode : NumberMode} {h h' : Heap} {lo lo' : Nat} {doc : Doc} {v : LuaValue}

theorem isNil_eq (hr : Represents mode h lo doc v) : HasNil.isNil doc = HasNil.isNil v := by
  cases hr <;> rfl

theorem lower (hr : Represents mode h lo doc v) (hle : lo' ≤ lo) : Represents mode h lo' doc v := by
  induction hr with
  | null => exact .null
  | boolean b => exact .boolean b
  | string text => exact .string text
  | integer hmode hn => exact .integer hmode hn
  | verbatim text hmode => exact .verbatim text hmode
  | table hlo hlt hshape _ ih => exact .table (hle.trans hlo) hlt hshape ih

/-- Only the tables from `lo` on matter. -/
theorem frame (hr : Represents mode h lo doc v) (hgrows : h.tables.length ≤ h'.tables.length)
    (hsame : ∀ r, lo ≤ r → r < h.tables.length → h'.table r = h.table r) :
    Represents mode h' lo doc v := by
  induction hr with
  | null => exact .null
  | boolean b => exact .boolean b
  | string text => exact .string text
  | integer hmode hn => exact .integer hmode hn
  | verbatim text hmode => exact .verbatim text hmode
  | @table entries r hlo hlt hshape _ ih =>
    have hr := hsame r hlo hlt
    refine .table hlo (hlt.trans_le hgrows) ?_ ?_
    · rwa [hr]
    · rwa [hr]

end Represents

/-- A table under construction, with the documents stored in it so far. -/
structure Filling (mode : NumberMode) (h : Heap) (t : TableRef) (docs : LuaTable Doc) : Prop where
  lt : t < h.tables.length
  rel : Rel (Represents mode h (t + 1)) docs (h.table t)

namespace Filling

variable {mode : NumberMode} {h h' : Heap} {t : TableRef} {docs : LuaTable Doc}

theorem frame (hf : Filling mode h t docs) (hgrows : h.tables.length ≤ h'.tables.length)
    (hsame : ∀ r < h.tables.length, h'.table r = h.table r) : Filling mode h' t docs := by
  refine ⟨hf.lt.trans_le hgrows, ?_⟩
  rw [hsame t hf.lt]
  exact hf.rel.imp fun _ _ hr => hr.frame hgrows fun r _ => hsame r

theorem represents {entries : Entries} (hf : Filling mode h t entries.docs) :
    Represents mode h t (.table entries) (.table t) := by
  refine .table le_rfl hf.lt hf.rel.map_eq fun key doc v hdoc hv => ?_
  have hget := hf.rel.get key
  rw [hdoc, hv] at hget
  cases hget with
  | some hr => exact hr.lower (Nat.le_succ t)

theorem chargeRawsetResult_meets (result : RawsetResult) (oldCap keep : Nat) (c : Core) :
    Meets True (writeCost (.ok result) oldCap) keep c (chargeRawsetResult result oldCap)
      fun _ c' => c'.heap = c.heap := by
  cases result with
  | updated => exact .pure trivial rfl
  | inserted grew newHashCapacity =>
    unfold chargeRawsetResult writeCost
    dsimp only
    split_ifs
    · exact trackAlloc_meets _ keep c
    · exact trackAlloc_meets _ keep c

/-- A document is stored. -/
theorem write {c : Core} (hf : Filling mode c.heap t docs) (key : LuaKey) {doc : Doc} {v : LuaValue}
    (hr : Represents mode c.heap (t + 1) doc v) :
    Meets (∃ result, (docs.rawsetTracked key doc).1 = .ok result)
      (writeCost (docs.rawsetTracked key doc).1 docs.capacity) t c (rawsetCharged t key v)
      fun _ c' => Filling mode c'.heap t (docs.rawsetTracked key doc).2 := by
  obtain ⟨hresult, hrel⟩ := hf.rel.rawsetTracked key hr hr.isNil_eq
  have hcapacity : docs.capacity = (c.heap.table t).capacity := hf.rel.capacity
  generalize hstored : c.heap.setTable t ((c.heap.table t).rawsetTracked key v).2 = stored
  have hlength : stored.tables.length = c.heap.tables.length := by
    rw [← hstored]
    exact List.length_set ..
  have hself : stored.table t = ((c.heap.table t).rawsetTracked key v).2 := by
    rw [← hstored, Heap.table_setTable, if_pos ⟨rfl, hf.lt⟩]
  have hother : ∀ r ≠ t, stored.table r = c.heap.table r := by
    intro r hne
    rw [← hstored, Heap.table_setTable, if_neg fun heq => hne heq.1]
  have hfilled : Filling mode stored t (docs.rawsetTracked key doc).2 := by
    refine ⟨hlength ▸ hf.lt, ?_⟩
    rw [hself]
    exact hrel.imp fun _ _ hr => hr.frame hlength.ge fun r hle _ => hother r (Nat.ne_of_gt hle)
  obtain ⟨grown, hrun⟩ : ∃ grown, (rawsetTracked t key v).run c =
      (liftLua ((c.heap.table t).rawsetTracked key v).1).run
        { c with heap := c.heap.setTable t ((c.heap.table t).rawsetTracked key v).2, grown } :=
    ⟨_, rfl⟩
  rw [hstored, ← hresult] at hrun
  rw [hcapacity]
  refine .after_run rfl ?_
  cases hwritten : (docs.rawsetTracked key doc).1 with
  | error e =>
    rw [hwritten] at hrun
    refine .of_error (Exec.run_bind_error hrun) ?_
    rintro ⟨result, hok⟩
    cases hok
  | ok result =>
    rw [hwritten] at hrun
    have htracked : Meets True 0 t c (rawsetTracked t key v) fun r c' =>
        r = result ∧ Filling mode c'.heap t (docs.rawsetTracked key doc).2 :=
      .of_ok hrun trivial ⟨rfl, le_rfl, hlength.ge, fun r hr => hother r (Nat.ne_of_lt hr)⟩
        ⟨rfl, hfilled⟩
    have hfits : ∃ r, (Except.ok result : Except LuaError RawsetResult) = .ok r := ⟨_, rfl⟩
    rw [eq_true hfits, ← Nat.zero_add (writeCost ..)]
    refine htracked.after le_rfl fun r c' _ hmid => ?_
    obtain ⟨rfl, hfilled'⟩ := hmid
    exact (chargeRawsetResult_meets _ _ t c').mono Iff.rfl le_rfl le_rfl
      fun _ _ _ hheap => hheap ▸ hfilled'

end Filling

section Building

variable {mode : NumberMode}

theorem payKey_meets (key : LuaKey) (keep : Nat) (c : Core) :
    Meets True (keyCost key) keep c (payKey key) fun _ c' => c'.heap = c.heap := by
  cases key with
  | string s => exact trackAlloc_meets _ keep c
  | _ => exact .pure trivial rfl

/-- A string built at its cost. -/
theorem string_meets (text : Bytes) {fits : Prop} (hfits : fits) (c : Core) {doc : Doc}
    (hr : ∀ h lo, Represents mode h lo doc (.string text)) :
    Meets fits (AllocSize.string text.length) c.heap.tables.length c
      (trackAlloc (AllocSize.string text.length) >>= fun _ => pure (.string text))
      fun v c' => Represents mode c'.heap c.heap.tables.length doc v := by
  refine ((trackAlloc_meets _ _ c).finish fun _ _ _ _ => .pure trivial (hr _ _)).mono
    (by simp [hfits]) le_rfl le_rfl fun _ _ _ hpost => hpost

mutual

/-- A document that fits is built, given the memory for it. -/
theorem build_meets : ∀ (doc : Doc), doc.Admits mode → ∀ c : Core,
    Meets doc.Fits (doc.cost mode) c.heap.tables.length c (doc.build mode)
      fun v c' => Represents mode c'.heap c.heap.tables.length doc v
  | .null, _, c => .pure trivial .null
  | .boolean b, _, c => .pure trivial (.boolean b)
  | .string text, _, c => string_meets text trivial c fun _ _ => .string text
  | .number text, hadmits, c => by
    cases mode with
    | verbatim => exact string_meets text trivial c fun _ _ => .verbatim text rfl
    | integer =>
      obtain ⟨n, hn⟩ := hadmits
      rw [Doc.build]
      simp only [hn]
      exact .pure trivial (.integer rfl hn)
  | .table entries, hadmits, c => by
    refine (newTable_meets c).after le_rfl fun t c' hkept hmid => ?_
    obtain ⟨rfl, htables⟩ := hmid
    have hempty : Filling mode c'.heap c.heap.tables.length new := by
      refine ⟨by simp [htables], ?_⟩
      have hnew : c'.heap.table c.heap.tables.length = LuaTable.new := by
        simp [Heap.table, htables]
      rw [hnew]
      exact Rel.new
    refine (fill_meets entries hadmits c' hempty).finish fun _ c'' _ hf => ?_
    exact .pure trivial hf.represents

theorem fill_meets : ∀ (entries : Entries), entries.Admits mode → ∀ (c : Core) {t : TableRef}
    {docs : LuaTable Doc}, Filling mode c.heap t docs →
    Meets (entries.FitsIn docs) (entries.cost mode docs) t c (entries.fill mode t)
      fun _ c' => Filling mode c'.heap t (entries.storedIn docs)
  | .nil, _, c, _, _, hf => .pure trivial hf
  | .cons key doc rest, hadmits, c, t, docs, hf => by
    refine (payKey_meets key t c).after le_rfl fun _ c₁ hkept₁ hheap => ?_
    have hf₁ : Filling mode c₁.heap t docs := hheap ▸ hf
    have hbuilt := (build_meets doc hadmits.1 c₁).mono Iff.rfl le_rfl hf₁.lt.le
      fun v c₂ hkept hr => And.intro (hf₁.frame hkept.grows hkept.frame) (hr.lower hf₁.lt)
    refine hbuilt.bind le_rfl fun v c₂ _ hmid => ?_
    refine (hmid.1.write key hmid.2).bind le_rfl fun _ c₃ _ hf₃ => ?_
    exact fill_meets rest hadmits.2 c₃ hf₃

end

end Building

end Proveno.Vm.Json
