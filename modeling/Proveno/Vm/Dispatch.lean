import Proveno.Compiler.Proto
import Proveno.Vm.Builtins
import Proveno.Vm.Machine

/-! The instructions that neither run a function to its end nor ask the host. -/

namespace Proveno

namespace Vm

/-- A table write of an instruction, with its gas and memory. -/
def doRawset (t : TableRef) (key : LuaKey) (value : LuaValue) : Vm Unit := do
  let oldCap := (← getTable t).capacity
  match ← rawsetTracked t key value with
  | .updated => charge GasCost.tableSetExisting
  | .inserted grew newHashCapacity => do
    charge GasCost.tableSetNewKey
    if grew then do
      charge newHashCapacity
      trackAlloc ((newHashCapacity - oldCap) * AllocSize.tableHashSlot)
    else trackAlloc AllocSize.tableArraySlot

def luaLen (v : LuaValue) : Vm LuaValue :=
  match v with
  | .string s => pure (.integer (Int64.ofNat s.length))
  | .table t => do pure (.integer (Int64.ofNat (← getTable t).length))
  | _ => liftLua (.error .type)

/-- The elements under `1..n`, a missing one as nil. -/
def arrayValues (t : TableRef) (n : Nat) : Vm (List LuaValue) := do
  pure (valuesFrom (← getTable t) 1 n)

/-- Write the elements back under `i..`. -/
def writeBack (t : TableRef) : Nat → List LuaValue → Vm Unit
  | _, [] => pure ()
  | i, v :: rest => do
    rawset t (LuaTable.arrayKey i) v
    writeBack t (i + 1) rest

def defaultLess (a b : LuaValue) : Vm Bool :=
  match a.luaCmp b with
  | .ok ord => pure ord.isLT
  | .error _ => raise (.typeError (ascii "table.sort: cannot compare mixed types"))

end Vm

namespace Engine

def constantToValue : Constant → LuaValue
  | .nil => .nil
  | .boolean b => .boolean b
  | .integer n => .integer n
  | .string s => .string s
  | .proto _ => .nil

def constantToStringKey : Constant → Except VmError LuaKey
  | .string s => .ok (.string s)
  | _ => .error (.typeError (ascii "GetField/SetField key must be a string constant"))

def errorToLuaValue : VmError → LuaValue
  | .runtimeError v => v
  | .typeError s => .string s
  | .toolError s => .string s
  | .callDepthExceeded => .string (ascii "call depth exceeded")
  | .gasExhausted => .string (ascii "gas exhausted")
  | .memoryExhausted => .string (ascii "memory exhausted")
  | .outputExceeded => .string (ascii "output exceeded")
  | .withLine _ inner => errorToLuaValue inner

/-- A constant of the function that runs. -/
def constant (program : CompiledProgram) (idx : UInt16) : Engine Constant := do
  let frame ← topFrame
  let proto ← orPanic program.prototypes[frame.protoIdx]?
  orPanic proto.constants[idx.toNat]?

def stringKey (program : CompiledProgram) (idx : UInt16) : Engine LuaKey := do
  match constantToStringKey (← constant program idx) with
  | .ok key => pure key
  | .error e => raise e

/-- A negative target becomes a large position. -/
def jumpBy (offset : Int16) : Engine Unit := do
  let frame ← topFrame
  let bits := (← Exec.get).core.target.wordBits
  let target := (frame.pc : Int) + offset.toInt
  setPc (if 0 ≤ target then target.toNat else (target % 2 ^ bits).toNat)

/-- The value that a sentinel string such as `__tostring` stands for. -/
def resolveSentinel (v : LuaValue) : Engine LuaValue := do
  match v with
  | .string s =>
    if (ascii "__").isPrefixOf s then
      pure (((← Exec.get).globals.get (.string s)).getD v)
    else pure v
  | _ => pure v

/-- The function of the string module that a method of a string stands for. -/
def stringMethod (key : LuaKey) : Engine LuaValue := do
  let s ← Exec.get
  let found := match s.globals.get (.string (ascii "__string")) with
    | some (.table m) => (s.core.heap.table m).get key
    | _ => none
  match found with
  | some f => pure f
  | none =>
    let name := match key with
      | .string s => fromUtf8Lossy s
      | _ => []
    raise (runtimeErr (ascii "string has no method '" ++ name ++ ascii "' (string." ++ name ++
      ascii " does not exist)"))

def tableOf (v : LuaValue) : Engine TableRef := liftLua v.asTable

def getOrNil (t : TableRef) (key : LuaKey) : Engine LuaValue := lift (Vm.getOrNil t key)

def loadLocal (slot : UInt8) : Engine Unit := do
  let frame ← topFrame
  let entry ← stackAt (frame.base + slot.toNat)
  let v ← slotValue entry.slot
  push v

def storeLocal (slot : UInt8) : Engine Unit := do
  let v ← popValue
  let frame ← topFrame
  let declares := (← Exec.get).ghost.declares frame.protoIdx (frame.pc - 1)
  assignSlot (frame.base + slot.toNat) declares v

def upvalueCell (idx : UInt8) : Engine CellRef := do
  let frame ← topFrame
  orPanic frame.upvalues[idx.toNat]?

def loadUp (idx : UInt8) : Engine Unit := do
  let cell ← upvalueCell idx
  let v ← lift (Vm.getCell cell)
  push v

def storeUp (idx : UInt8) : Engine Unit := do
  let v ← popValue
  let cell ← upvalueCell idx
  lift (Vm.setCell cell v)

def newTable : Engine Unit := do
  charge GasCost.tableAlloc
  lift (Vm.trackAlloc AllocSize.tableBase)
  let t ← lift (Vm.allocTable LuaTable.new)
  push (.table t)

def getTable : Engine Unit := do
  charge GasCost.tableGet
  let key ← liftLua (← popValue).intoKey
  let v ← resolveSentinel (← popValue)
  let t ← tableOf v
  push (← getOrNil t key)

def setTable : Engine Unit := do
  let value ← popValue
  let key ← liftLua (← popValue).intoKey
  let t ← tableOf (← popValue)
  lift (Vm.doRawset t key value)

def getField (program : CompiledProgram) (idx : UInt16) : Engine Unit := do
  charge GasCost.tableGet
  let key ← stringKey program idx
  let v ← resolveSentinel (← popValue)
  match v with
  | .string _ => push (← stringMethod key)
  | other => do
    let t ← tableOf other
    push (← getOrNil t key)

def setField (program : CompiledProgram) (idx : UInt16) : Engine Unit := do
  let value ← popValue
  let key ← stringKey program idx
  let t ← tableOf (← popValue)
  lift (Vm.doRawset t key value)

/-- An operator on the two topmost values. -/
def binary (op : LuaValue → LuaValue → Except LuaError LuaValue) : Engine Unit := do
  let b ← popValue
  let a ← popValue
  push (← liftLua (op a b))

def unary (op : LuaValue → Except LuaError LuaValue) : Engine Unit := do
  let a ← popValue
  push (← liftLua (op a))

def comparison (test : Ordering → Bool) : Engine Unit :=
  binary fun a b => (a.luaCmp b).map fun ord => .boolean (test ord)

/-- `and` and `or`: keep the value and jump when its truth is the one given. -/
def shortCircuit (truth : Bool) (offset : Int16) : Engine Unit := do
  let top ← topSlot
  let v ← slotValue top.slot
  if v.isTruthy = truth then jumpBy offset else pure ()

def jumpWhen (truth : Bool) (offset : Int16) : Engine Unit := do
  let v ← popValue
  if v.isTruthy = truth then jumpBy offset else pure ()

def concat (n : UInt8) : Engine Unit := do
  let parts ← popValues n.toNat
  let first ← orPanic parts.head?
  let acc ← liftLua (parts.tail.foldlM LuaValue.luaConcat first)
  let resultLen := match acc with
    | .string s => s.length
    | _ => 0
  charge resultLen
  lift (Vm.trackAlloc (AllocSize.string resultLen))
  push acc

def len : Engine Unit := do
  charge GasCost.len
  let a ← popValue
  push (← lift (Vm.luaLen a))

/-- Bind the arguments to the parameters that have a slot. -/
def bindArgs (base params : Nat) : Nat → List LuaValue → Engine Unit
  | _, [] => pure ()
  | i, arg :: rest => do
    if i < params then bindSlot (base + i) arg else pure ()
    bindArgs base params (i + 1) rest

def pushNils : Nat → Engine Unit
  | 0 => pure ()
  | n + 1 => do
    push .nil
    pushNils n

def pushCallFrame (program : CompiledProgram) (closure : LuaClosure) (args : List LuaValue)
    (expectedReturns : Nat) : Engine Unit := do
  let proto ← orPanic program.prototypes[closure.protoIdx]?
  lift (Vm.trackAlloc (AllocSize.stackFrame proto.localCount))
  let base := (← Exec.get).stack.length
  pushFrame ⟨closure.protoIdx, 0, base, closure.upvalues, expectedReturns⟩
  pushNils proto.localCount.toNat
  bindArgs base (min proto.paramCount.toNat proto.localCount.toNat) 0 args

/-- The value returned when the outermost frame ends, nothing otherwise. -/
def doReturn (n : Nat) : Engine (Option LuaValue) := do
  let returned ← popValues n
  let v := returned.headD .nil
  let frame ← topFrame
  popFrame
  truncateStack frame.base
  if (← Exec.get).frames = [] then pure (some v)
  else do
    if frame.expectedReturns ≥ 1 then push v else pure ()
    pure none

def capture (desc : UpvalueDesc) : Engine CellRef := do
  let frame ← topFrame
  match desc with
  | .local slot => captureSlot (frame.base + slot.toNat)
  | .upvalue idx => orPanic frame.upvalues[idx.toNat]?

def captureAll : List UpvalueDesc → Engine (List CellRef)
  | [] => pure []
  | desc :: rest => do
    let cell ← capture desc
    let cells ← captureAll rest
    pure (cell :: cells)

def closure (program : CompiledProgram) (protoIdx : UInt16) : Engine Unit := do
  let proto ← orPanic program.prototypes[protoIdx.toNat]?
  lift (Vm.trackAlloc (AllocSize.closure proto.upvalueCount))
  let upvalues ← captureAll proto.upvalues
  push (.function ⟨protoIdx.toNat, upvalues⟩)

def log : Engine Unit := do
  let v ← popValue
  let msg := fromUtf8Lossy v.toLuaString
  charge (GasCost.logBase + msg.length)
  logMessage msg

def error : Engine Unit := do
  let v ← popValue
  charge GasCost.errorRaise
  raise (.runtimeError v)

def iterInitSorted (offset : Int16) : Engine Unit := do
  let t ← tableOf (← popValue)
  let keys := (← lift (Vm.getTable t)).sortedKeys
  charge (keys.length * Vm.ceilLog2 (keys.length + 1))
  if keys.length = 0 then jumpBy offset else pushSlot (.iterHandle (.sorted keys 0 t))

def iterInitArray (offset : Int16) : Engine Unit := do
  let t ← tableOf (← popValue)
  charge GasCost.baseInstruction
  if ((← lift (Vm.getTable t)).get (.integer 1)).isNone then jumpBy offset
  else pushSlot (.iterHandle (.array t 1))

def iterNext (offset : Int16) : Engine Unit := do
  match (← Exec.get).stack.getLast?.map OwnedSlot.slot with
  | some (.iterHandle handle) => do
    let _ ← popSlot
    match handle with
    | .sorted keys index table =>
      match keys[index]? with
      | none => jumpBy offset
      | some key => do
        let value ← getOrNil table key
        charge GasCost.iterSortedStep
        pushSlot (.iterHandle (.sorted keys (index + 1) table))
        push key.toValue
        push value
    | .array table index => do
      let value ← getOrNil table (.integer index)
      if value = .nil then jumpBy offset
      else do
        charge GasCost.iterArrayStep
        let next ← orPanic ((← Exec.get).core.target.checkedI64 (index.toInt + 1))
        pushSlot (.iterHandle (.array table next))
        push (.integer index)
        push value
  | _ => raise (runtimeErr (ascii "IterNext: expected iterator handle on stack"))

/-- The function and the arguments of a call, the arguments on top. -/
def takeCall (argc : UInt8) : Engine (LuaValue × List LuaValue) := do
  let args ← popValues argc.toNat
  let func ← resolveSentinel (← popValue)
  recordCall func args
  pure (func, args)

/-- What an instruction does; calls and returns are not among those carried out here. -/
def perform (program : CompiledProgram) : Instruction → Engine Unit
  | .nop => pure ()
  | .pushK idx => do push (constantToValue (← constant program idx))
  | .pushNil => push .nil
  | .pushTrue => push (.boolean true)
  | .pushFalse => push (.boolean false)
  | .pop => do let _ ← popSlot
  | .dup => dup
  | .loadLocal slot => loadLocal slot
  | .storeLocal slot => storeLocal slot
  | .loadUp idx => loadUp idx
  | .storeUp idx => storeUp idx
  | .newTable => newTable
  | .getTable => getTable
  | .setTable => setTable
  | .getField idx => getField program idx
  | .setField idx => setField program idx
  | .add => binary LuaValue.luaAdd
  | .sub => binary LuaValue.luaSub
  | .mul => binary LuaValue.luaMul
  | .iDiv => binary LuaValue.luaIdiv
  | .mod => binary LuaValue.luaMod
  | .neg => unary LuaValue.luaUnm
  | .eq => binary fun a b => .ok (.boolean (a == b))
  | .ne => binary fun a b => .ok (.boolean (a != b))
  | .lt => comparison Ordering.isLT
  | .le => comparison Ordering.isLE
  | .gt => comparison Ordering.isGT
  | .ge => comparison Ordering.isGE
  | .not => unary fun a => .ok (.boolean (!a.isTruthy))
  | .and offset => shortCircuit false offset
  | .or offset => shortCircuit true offset
  | .concat n => concat n
  | .len => len
  | .jmp offset => jumpBy offset
  | .jmpIf offset => jumpWhen true offset
  | .jmpIfNot offset => jumpWhen false offset
  | .closure idx => closure program idx
  | .log => log
  | .error => error
  | .iterInitSorted offset => iterInitSorted offset
  | .iterInitArray offset => iterInitArray offset
  | .iterNext offset => iterNext offset
  | .call _ | .pcall _ | .toolCall | .ret _ => pure ()

end Engine

end Proveno
