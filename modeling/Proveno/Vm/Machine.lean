import Proveno.Vm.Core

/-! The state of the machine without its host, and the primitive steps on its stack and
frames. The stack grows at the end of its list and the innermost frame is the head of
the frames. -/

namespace Proveno

/-- What the machine knows about lifetimes, which no computed value depends on. -/
structure Ghost where
  /-- The stores, by prototype and position, that begin a local's lifetime. -/
  declares : Nat → Nat → Bool
  nextOwner : Nat

structure Machine where
  config : VmConfig
  core : Core
  stack : List OwnedSlot
  frames : List CallFrame
  globals : LuaTable LuaValue
  ghost : Ghost

abbrev Engine := Exec Stop Machine

namespace Engine

/-- A computation that uses the meters, the heap and the logs only. -/
def lift {α : Type} (m : Vm α) : Engine α :=
  Exec.zoom Machine.core (fun s core => { s with core }) m

def raise {α : Type} (e : VmError) : Engine α := lift (Vm.raise e)

def panic {α : Type} : Engine α := Exec.throw .panicked

def charge (amount : Nat) : Engine Unit := lift (Vm.charge amount)

def liftLua {α : Type} (r : Except LuaError α) : Engine α := lift (Vm.liftLua r)

/-- An operation that panics on `none`, such as indexing. -/
def orPanic {α : Type} (o : Option α) : Engine α := lift (Vm.orPanic o)

def record (e : Event) : Engine Unit := lift (Vm.record e)

def recordCall (callee : LuaValue) (args : List LuaValue) : Engine Unit := do
  let s ← Exec.get
  record (.call s.frames.length callee args s.core.heap)

/-- A lifetime that no slot belongs to yet. -/
def freshOwner : Engine Nat := ⟨fun s =>
  (.ok s.ghost.nextOwner, { s with ghost := { s.ghost with nextOwner := s.ghost.nextOwner + 1 } })⟩

def stackUnderflow : VmError := runtimeErr (ascii "stack underflow")

def iterHandleAsValue : VmError := runtimeErr (ascii "attempt to use iterator handle as value")

def iterHandleCapture : VmError :=
  runtimeErr (ascii "cannot capture iterator handle as upvalue")

/-- The value of a slot, read through its cell when it is shared. -/
def slotValue : StackSlot → Engine LuaValue
  | .value v => pure v
  | .shared cell => lift (Vm.getCell cell)
  | .iterHandle _ => raise iterHandleAsValue

def pushOwned (slot : OwnedSlot) : Engine Unit :=
  Exec.modify fun s => { s with stack := s.stack ++ [slot] }

def pushSlot (slot : StackSlot) : Engine Unit := do
  let owner ← freshOwner
  pushOwned ⟨owner, slot⟩

def push (v : LuaValue) : Engine Unit := pushSlot (.value v)

/-- `Vec::pop` on the stack. -/
def popSlot : Engine (Option StackSlot) := do
  let s ← Exec.get
  match s.stack.getLast? with
  | none => pure none
  | some top =>
    Exec.modify fun s => { s with stack := s.stack.dropLast }
    record (.pop s.frames (s.stack.length - 1))
    pure (some top.slot)

def popValue : Engine LuaValue := do
  match ← popSlot with
  | none => raise stackUnderflow
  | some slot => slotValue slot

/-- Pop as many values, the topmost last in the result. -/
def popValues : Nat → Engine (List LuaValue)
  | 0 => pure []
  | n + 1 => do
    let v ← popValue
    let rest ← popValues n
    pure (rest ++ [v])

def topSlot : Engine OwnedSlot := do
  match (← Exec.get).stack.getLast? with
  | none => raise stackUnderflow
  | some top => pure top

/-- `self.stack[idx]`. -/
def stackAt (idx : Nat) : Engine OwnedSlot := do
  orPanic (← Exec.get).stack[idx]?

def setStackAt (idx : Nat) (slot : OwnedSlot) : Engine Unit :=
  Exec.modify fun s => { s with stack := s.stack.set idx slot }

/-- Push another copy of the topmost slot. -/
def dup : Engine Unit := do
  pushOwned (← topSlot)

/-- Give a slot a value, as when an argument is bound. -/
def bindSlot (idx : Nat) (v : LuaValue) : Engine Unit := do
  let entry ← stackAt idx
  setStackAt idx { entry with slot := .value v }

/-- Store into a slot, through its cell when it is shared. A store that declares begins
a new lifetime, whatever the slot holds. -/
def assignSlot (idx : Nat) (declares : Bool) (v : LuaValue) : Engine Unit := do
  let entry ← stackAt idx
  let owner ← if declares then freshOwner else pure entry.owner
  match entry.slot with
  | .shared cell => do
    lift (Vm.setCell cell v)
    record (.assign owner cell declares)
    setStackAt idx ⟨owner, .shared cell⟩
  | _ => setStackAt idx ⟨owner, .value v⟩

/-- The cell of a slot, which becomes shared unless it is already. -/
def captureSlot (idx : Nat) : Engine CellRef := do
  let entry ← stackAt idx
  match entry.slot with
  | .shared cell => do
    record (.capture entry.owner cell)
    pure cell
  | .value v => do
    let cell ← lift (Vm.allocCell v)
    setStackAt idx { entry with slot := .shared cell }
    record (.capture entry.owner cell)
    pure cell
  | .iterHandle _ => raise iterHandleCapture

def logMessage (msg : Bytes) : Engine Unit := do
  record (.logging (← Exec.get).core.logs msg)
  lift (Vm.log msg)

def topFrame : Engine CallFrame := do
  orPanic (← Exec.get).frames.head?

/-- Move the innermost frame to another position of its code. -/
def setPc (pc : Nat) : Engine Unit := do
  let frame ← topFrame
  Exec.modify fun s => { s with frames := { frame with pc } :: s.frames.tail }

def pushFrame (frame : CallFrame) : Engine Unit := do
  Exec.modify fun s => { s with frames := frame :: s.frames }
  record (.enter (← Exec.get).frames.length)

def popFrame : Engine Unit := Exec.modify fun s => { s with frames := s.frames.tail }

def truncateStack (len : Nat) : Engine Unit :=
  Exec.modify fun s => { s with stack := s.stack.take len }

/-- `Vec::truncate` on the frames, whose last is the head here. -/
def truncateFrames (len : Nat) : Engine Unit :=
  Exec.modify fun s => { s with frames := s.frames.drop (s.frames.length - len) }

section Runs

variable (s : Machine)

theorem run_lift {α : Type} (m : Vm α) :
    (lift m).run s = ((m.run s.core).1, { s with core := (m.run s.core).2 }) := rfl

theorem run_raise {α : Type} (e : VmError) :
    (raise e : Engine α).run s = (.error (.raised e), { s with core := s.core.noteRaise e }) := rfl

theorem run_orPanic {α : Type} (o : Option α) :
    (orPanic o).run s = (match o with | some a => .ok a | none => .error .panicked, s) := by
  cases o <;> rfl

theorem run_record (e : Event) :
    (record e).run s = (.ok (), { s with core := s.core.record e }) := rfl

theorem run_recordCall (callee : LuaValue) (args : List LuaValue) :
    (recordCall callee args).run s =
      (.ok (), { s with core := s.core.record (.call s.frames.length callee args s.core.heap) }) :=
  rfl

theorem run_pushSlot (slot : StackSlot) :
    (pushSlot slot).run s = (.ok (), { s with
      stack := s.stack ++ [⟨s.ghost.nextOwner, slot⟩]
      ghost := { s.ghost with nextOwner := s.ghost.nextOwner + 1 } }) := rfl

theorem run_popSlot :
    popSlot.run s = match s.stack.getLast? with
      | none => (.ok none, s)
      | some top => (.ok (some top.slot), { s with
          stack := s.stack.dropLast
          core := s.core.record (.pop s.frames (s.stack.length - 1)) }) := by
  simp only [popSlot, Exec.run_bind, Exec.run_get]
  cases s.stack.getLast? <;> rfl

theorem run_topSlot :
    topSlot.run s = match s.stack.getLast? with
      | none => (.error (.raised stackUnderflow), { s with core := s.core.noteRaise stackUnderflow })
      | some top => (.ok top, s) := by
  simp only [topSlot, Exec.run_bind, Exec.run_get]
  cases s.stack.getLast? <;> rfl

theorem run_dup :
    dup.run s = match s.stack.getLast? with
      | none => (.error (.raised stackUnderflow), { s with core := s.core.noteRaise stackUnderflow })
      | some top => (.ok (), { s with stack := s.stack ++ [top] }) := by
  simp only [dup, Exec.run_bind, run_topSlot]
  cases s.stack.getLast? <;> rfl

theorem run_stackAt (idx : Nat) :
    (stackAt idx).run s =
      (match s.stack[idx]? with | some slot => .ok slot | none => .error .panicked, s) := by
  simp only [stackAt, Exec.run_bind, Exec.run_get, run_orPanic]
  cases s.stack[idx]? <;> rfl

theorem run_bindSlot (idx : Nat) (v : LuaValue) :
    (bindSlot idx v).run s = match s.stack[idx]? with
      | none => (.error .panicked, s)
      | some entry =>
        (.ok (), { s with stack := s.stack.set idx { entry with slot := .value v } }) := by
  simp only [bindSlot, Exec.run_bind, run_stackAt]
  cases s.stack[idx]? <;> rfl

theorem run_assignSlot (idx : Nat) (declares : Bool) (v : LuaValue) :
    (assignSlot idx declares v).run s = match s.stack[idx]? with
      | none => (.error .panicked, s)
      | some entry =>
        let owner := if declares then s.ghost.nextOwner else entry.owner
        let ghost := { s.ghost with
          nextOwner := if declares then s.ghost.nextOwner + 1 else s.ghost.nextOwner }
        match entry.slot with
        | .shared cell => (.ok (), { s with
            stack := s.stack.set idx ⟨owner, .shared cell⟩
            core := { s.core with heap := s.core.heap.setCell cell v }.record
              (.assign owner cell declares)
            ghost })
        | _ => (.ok (), { s with stack := s.stack.set idx ⟨owner, .value v⟩, ghost }) := by
  simp only [assignSlot, Exec.run_bind, run_stackAt]
  cases s.stack[idx]? with
  | none => rfl
  | some entry =>
    rcases entry with ⟨owner, slot⟩
    cases declares <;> cases slot <;> rfl

theorem run_captureSlot (idx : Nat) :
    (captureSlot idx).run s = match s.stack[idx]? with
      | none => (.error .panicked, s)
      | some entry =>
        match entry.slot with
        | .shared cell => (.ok cell, { s with core := s.core.record (.capture entry.owner cell) })
        | .value v => (.ok s.core.heap.cells.length, { s with
            stack := s.stack.set idx ⟨entry.owner, .shared s.core.heap.cells.length⟩
            core := { s.core with heap := (s.core.heap.allocCell v).2 }.record
              (.capture entry.owner s.core.heap.cells.length) })
        | .iterHandle _ => (raise iterHandleCapture).run s := by
  simp only [captureSlot, Exec.run_bind, run_stackAt]
  cases s.stack[idx]? with
  | none => rfl
  | some entry =>
    rcases entry with ⟨owner, slot⟩
    cases slot <;> rfl

theorem run_logMessage (msg : Bytes) :
    (logMessage msg).run s = (.ok (), { s with core :=
      { s.core.record (.logging s.core.logs msg) with logs := s.core.logs ++ [msg] } }) := rfl

theorem run_topFrame :
    topFrame.run s =
      (match s.frames.head? with | some frame => .ok frame | none => .error .panicked, s) := by
  simp only [topFrame, Exec.run_bind, Exec.run_get, run_orPanic]
  cases s.frames.head? <;> rfl

theorem run_setPc (pc : Nat) :
    (setPc pc).run s = match s.frames with
      | [] => (.error .panicked, s)
      | frame :: rest => (.ok (), { s with frames := { frame with pc } :: rest }) := by
  simp only [setPc, Exec.run_bind, run_topFrame]
  rcases hframes : s.frames with - | ⟨frame, rest⟩
  · rfl
  · simp [hframes]

theorem run_pushFrame (frame : CallFrame) :
    (pushFrame frame).run s = (.ok (), { s with
      frames := frame :: s.frames
      core := s.core.record (.enter (s.frames.length + 1)) }) := rfl

end Runs

end Engine

end Proveno
