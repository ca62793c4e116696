import Proveno.Vm.Storage

/-! Stack slots, call frames, and the events that the history of a run records. Owners
and events are ghost state: no computed value depends on them. -/

namespace Proveno

inductive IterHandle
  | sorted (keys : List LuaKey) (index : Nat) (table : TableRef)
  | array (table : TableRef) (index : Int64)
  deriving DecidableEq

inductive StackSlot
  | value (v : LuaValue)
  | shared (cell : CellRef)
  | iterHandle (handle : IterHandle)
  deriving DecidableEq

/-- A stack slot with the lifetime it belongs to: a temporary, or one activation
of a local variable. -/
structure OwnedSlot where
  owner : Nat
  slot : StackSlot
  deriving DecidableEq

structure CallFrame where
  protoIdx : Nat
  pc : Nat
  base : Nat
  upvalues : List CellRef
  expectedReturns : Nat
  deriving DecidableEq

/-- By how many bytes tables have grown, and how many the memory meter has counted. -/
structure Usage where
  grown : Nat
  used : Nat
  deriving DecidableEq

inductive Event
  /-- An instruction is about to be carried out by the innermost of the frames, in the
  loop of a protected call or of a comparator when it is nested. -/
  | dispatch (nested : Bool) (frames : List CallFrame) (stack : List OwnedSlot)
  /-- The instruction dispatched after so many events has been carried out: what had been
  stored and used before it, and what has been after it. -/
  | completed (turn : Nat) (before after : Usage)
  /-- The innermost frame is at the end of its code and returns nothing. -/
  | fallOff (nested : Bool)
  /-- The gas of an instruction has been paid. -/
  | charged
  /-- A frame was pushed, after which there are so many. -/
  | enter (depth : Nat)
  /-- A value was popped, which leaves so many on the stack. -/
  | pop (frames : List CallFrame) (stackLen : Nat)
  /-- A value is called with so many frames live. -/
  | call (depth : Nat) (callee : LuaValue) (args : List LuaValue) (heap : Heap)
  /-- A protected call ended: the frames and the stack before it, its outcome, and the
  frames and the stack after it. -/
  | pcall (argc : Nat) (frames : List CallFrame) (stack : List OwnedSlot)
      (outcome : Except VmError LuaValue) (frames' : List CallFrame) (stack' : List OwnedSlot)
  /-- The slot of an owner was captured through a cell. -/
  | capture (owner : Nat) (cell : CellRef)
  /-- The slot of an owner was assigned through a cell. -/
  | assign (owner : Nat) (cell : CellRef) (declares : Bool)
  /-- A value is about to be stored in a table without a charge. -/
  | store (t : LuaTable LuaValue) (key : LuaKey) (value : LuaValue)
  /-- The response of a tool is about to be placed in the heap. -/
  | response (t : LuaTable LuaValue)
  /-- A message is about to be logged after those there are. -/
  | logging (logs : List Bytes) (msg : Bytes)
  /-- The host answered, with the heap before and after. -/
  | reply (before : Heap) (answer : Except Bytes (LuaTable OwnedValue)) (after : Heap)
  /-- An unrecoverable error was raised, with the heap and the logs at that moment. -/
  | fatal (e : VmError) (heap : Heap) (logs : List Bytes)

end Proveno
