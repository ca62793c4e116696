import Proveno.Lib.Exec
import Proveno.Types.Utf8
import Proveno.Vm.Event

/-! How the runtime is configured and built, and what all its computations work with:
the two meters, the heap and the logs. The history and the growth of tables are ghost state. -/

namespace Proveno

structure VmConfig where
  gasLimit : Nat
  memoryLimitBytes : Nat
  maxCallDepth : Nat
  maxToolCalls : Nat
  maxToolBytesIn : Nat
  maxToolBytesOut : Nat
  maxOutputBytes : Nat
  recordTrace : Bool

def VmConfig.default : VmConfig where
  gasLimit := 200000
  memoryLimitBytes := 16 * 1024 * 1024
  maxCallDepth := 64
  maxToolCalls := 16
  maxToolBytesIn := 64 * 1024
  maxToolBytesOut := 1024 * 1024
  maxOutputBytes := 256 * 1024
  recordTrace := false

/-- How the runtime was built: the width of `usize`, whether integer overflow
panics, and how many values one vector can be asked to hold. -/
structure Target where
  wordBits : Nat
  overflowChecks : Bool
  maxElements : Nat

structure Core where
  target : Target
  gas : GasMeter
  mem : MemoryMeter
  heap : Heap
  logs : List Bytes
  /-- The latest event first. -/
  history : List Event
  /-- By how many bytes tables have grown. -/
  grown : Nat

def Core.fresh (target : Target) (gasLimit memoryLimit : Nat) (heap : Heap) : Core where
  target
  gas := .new gasLimit
  mem := .new memoryLimit
  heap
  logs := []
  history := []
  grown := 0

def Core.usage (c : Core) : Usage := ⟨c.grown, c.mem.allocated⟩

def Core.record (c : Core) (e : Event) : Core := { c with history := e :: c.history }

/-- An unrecoverable error leaves a mark in the history. -/
def Core.noteRaise (c : Core) (e : VmError) : Core :=
  if e.isUnrecoverable then c.record (.fatal e c.heap c.logs) else c

abbrev Stop := Failure VmError

abbrev Vm := Exec Stop Core

namespace Vm

def raise {α : Type} (e : VmError) : Vm α := ⟨fun s => (.error (.raised e), s.noteRaise e)⟩

def panic {α : Type} : Vm α := Exec.throw .panicked

def liftError {α : Type} : Except VmError α → Vm α
  | .ok a => pure a
  | .error e => raise e

def liftLua {α : Type} : Except LuaError α → Vm α
  | .ok a => pure a
  | .error e => raise (.ofLuaError e)

/-- An operation that panics on `none`, such as indexing. -/
def orPanic {α : Type} : Option α → Vm α
  | some a => pure a
  | none => panic

def charge (amount : Nat) : Vm Unit := ⟨fun s =>
  let (r, gas) := s.gas.charge amount
  (liftError r).run { s with gas }⟩

def trackAlloc (bytes : Nat) : Vm Unit := ⟨fun s =>
  let (r, mem) := s.mem.trackAlloc bytes
  (liftError r).run { s with mem }⟩

def getTable (r : TableRef) : Vm (LuaTable LuaValue) := ⟨fun s => (.ok (s.heap.table r), s)⟩

def allocTable (t : LuaTable LuaValue) : Vm TableRef := ⟨fun s =>
  let (r, heap) := s.heap.allocTable t
  (.ok r, { s with heap, grown := s.grown + t.storage })⟩

def record (e : Event) : Vm Unit := Exec.modify fun s => s.record e

/-- A table that a host has made, nothing of which is paid for. -/
def allocResponse (t : LuaTable LuaValue) : Vm TableRef := do
  record (.response t)
  allocTable t

/-- The call keeps the table it leaves behind, also when it fails. -/
def rawsetTracked (r : TableRef) (key : LuaKey) (value : LuaValue) : Vm RawsetResult := ⟨fun s =>
  let t := s.heap.table r
  let (result, t') := t.rawsetTracked key value
  (liftLua result).run
    { s with heap := s.heap.setTable r t', grown := s.grown + t.growth key t' }⟩

def rawset (r : TableRef) (key : LuaKey) (value : LuaValue) : Vm Unit := do
  record (.store (← getTable r) key value)
  let _ ← rawsetTracked r key value

def rawremove (r : TableRef) (key : LuaKey) : Vm Unit :=
  Exec.modify fun s => { s with heap := s.heap.setTable r ((s.heap.table r).rawremove key) }

def getCell (c : CellRef) : Vm LuaValue := ⟨fun s => (.ok (s.heap.cell c), s)⟩

def setCell (c : CellRef) (v : LuaValue) : Vm Unit :=
  Exec.modify fun s => { s with heap := s.heap.setCell c v }

def allocCell (v : LuaValue) : Vm CellRef := ⟨fun s =>
  let (c, heap) := s.heap.allocCell v
  (.ok c, { s with heap })⟩

def log (msg : Bytes) : Vm Unit := Exec.modify fun s => { s with logs := s.logs ++ [msg] }

section Runs

variable {c : Core}

theorem run_charge (n : Nat) :
    (charge n).run c = if n > c.gas.remaining then
        (.error (.raised .gasExhausted),
          { c with gas := { c.gas with remaining := 0 } }.record
            (.fatal .gasExhausted c.heap c.logs))
      else (.ok (), { c with gas := { c.gas with remaining := c.gas.remaining - n } }) := by
  simp only [charge, GasMeter.charge]
  split_ifs <;> rfl

theorem run_trackAlloc (n : Nat) :
    (trackAlloc n).run c =
      let c' := { c with mem := { c.mem with
        allocated := min (c.mem.allocated + n) MemoryMeter.u64Max } }
      if min (c.mem.allocated + n) MemoryMeter.u64Max > c.mem.limit then
        (.error (.raised .memoryExhausted), c'.record (.fatal .memoryExhausted c.heap c.logs))
      else (.ok (), c') := by
  simp only [trackAlloc, MemoryMeter.trackAlloc]
  split_ifs <;> rfl

theorem run_orPanic {α : Type} (o : Option α) :
    (orPanic o).run c = (match o with | some a => .ok a | none => .error .panicked, c) := by
  cases o <;> rfl

theorem run_liftError {α : Type} (e : Except VmError α) :
    (liftError e).run c =
      match e with
      | .ok a => (.ok a, c)
      | .error e => (.error (.raised e), c.noteRaise e) := by
  cases e <;> rfl

end Runs

end Vm

end Proveno
