import Proveno.Types.Heap

/-! Errors of the virtual machine and its two meters. Gas is a budget that only
shrinks; memory is a total that only grows. -/

namespace Proveno

inductive VmError
  | gasExhausted
  | memoryExhausted
  | callDepthExceeded
  | typeError (msg : Bytes)
  | runtimeError (v : LuaValue)
  | toolError (msg : Bytes)
  | outputExceeded
  | withLine (line : Nat) (inner : VmError)
  deriving DecidableEq

namespace VmError

def isUnrecoverable : VmError → Bool
  | gasExhausted | memoryExhausted | outputExceeded => true
  | withLine _ inner => inner.isUnrecoverable
  | _ => false

/-- The error itself, without the lines it was given. -/
def cause : VmError → VmError
  | withLine _ inner => inner.cause
  | e => e

theorem isUnrecoverable_cause (e : VmError) : e.cause.isUnrecoverable = e.isUnrecoverable := by
  induction e with
  | withLine line inner ih => exact ih
  | _ => rfl

def ofLuaError : LuaError → VmError
  | .type => typeError (ascii "type error")
  | .memory => memoryExhausted
  | .runtime => runtimeError (.string (ascii "runtime error"))

end VmError

def runtimeErr (msg : Bytes) : VmError := .runtimeError (.string msg)

namespace GasCost

def baseInstruction : Nat := 1
def functionCall : Nat := 10
def functionReturn : Nat := 5
def pcallSetup : Nat := 15
def pcallUnwind : Nat := 10
def tableAlloc : Nat := 20
def tableGet : Nat := 2
def tableSetExisting : Nat := 2
def tableSetNewKey : Nat := 5
def iterSortedStep : Nat := 2
def iterArrayStep : Nat := 1
def len : Nat := 1
def toolCallBase : Nat := 100
def logBase : Nat := 10
def errorRaise : Nat := 10

end GasCost

structure GasMeter where
  remaining : Nat
  limit : Nat
  deriving DecidableEq

namespace GasMeter

def new (limit : Nat) : GasMeter := ⟨limit, limit⟩

def charge (gas : GasMeter) (amount : Nat) : Except VmError Unit × GasMeter :=
  if amount > gas.remaining then (.error .gasExhausted, { gas with remaining := 0 })
  else (.ok (), { gas with remaining := gas.remaining - amount })

def used (gas : GasMeter) : Nat := gas.limit - gas.remaining

end GasMeter

structure MemoryMeter where
  allocated : Nat
  limit : Nat
  deriving DecidableEq

namespace MemoryMeter

def u64Max : Nat := 2 ^ 64 - 1

def new (limit : Nat) : MemoryMeter := ⟨0, limit⟩

def trackAlloc (mem : MemoryMeter) (bytes : Nat) : Except VmError Unit × MemoryMeter :=
  let allocated := min (mem.allocated + bytes) u64Max
  (if allocated > mem.limit then .error .memoryExhausted else .ok (), { mem with allocated })

def used (mem : MemoryMeter) : Nat := mem.allocated

end MemoryMeter

namespace AllocSize

def string (len : Nat) : Nat := 24 + len
def tableBase : Nat := 64
def tableHashSlot : Nat := 40
def tableArraySlot : Nat := 16
def closure (upvalueCount : UInt8) : Nat := 32 + upvalueCount.toNat * 8
def stackFrame (localCount : UInt8) : Nat := 64 + localCount.toNat * 8

end AllocSize

end Proveno
