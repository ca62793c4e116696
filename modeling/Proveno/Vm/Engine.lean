import Proveno.Isa.Opcodes
import Proveno.Vm.Calls

/-! The loops of the machine and a whole run. Every turn of a loop takes one unit of
fuel, and so does every turn of the loops within it. -/

namespace Proveno

structure VmOutput where
  returnValue : LuaValue
  logs : List Bytes
  gasUsed : Nat
  memoryUsed : Nat
  transcript : Transcript
  trace : List TraceStep

/-- `Vm::new`, on a heap that may already hold values of the caller. -/
def System.new {H : Type} (config : VmConfig) (target : Target) (heap : Heap) (host : H)
    (declares : Nat → Nat → Bool) : System H where
  machine := {
    config
    core := .fresh target config.gasLimit config.memoryLimitBytes (Globals.build heap).2
    stack := []
    frames := []
    globals := (Globals.build heap).1
    ghost := ⟨declares, 0⟩ }
  registry := .new host
  transcript := []

namespace Engine

/-- The instruction that the innermost frame is at, none at the end of its code. -/
def fetch (program : CompiledProgram) : Engine (CallFrame × Option Instruction) := do
  let frame ← topFrame
  let proto ← orPanic program.prototypes[frame.protoIdx]?
  pure (frame, proto.code[frame.pc]?)

/-- The frame moves past the instruction before it is carried out. The history tells this
turn from others by the number of events before it. -/
def advance (nested : Bool) (frame : CallFrame) : Engine (Nat × Usage) := do
  let s ← Exec.get
  record (.dispatch nested s.frames s.stack)
  setPc (frame.pc + 1)
  pure (s.core.history.length, s.core.usage)

/-- The instruction of a turn has been carried out. -/
def complete (turn : Nat × Usage) : Engine Unit := do
  record (.completed turn.1 turn.2 (← Exec.get).core.usage)

/-- The return from a frame at the end of its code. -/
def implicitReturn (nested : Bool) : Engine (Option LuaValue) := do
  record (.fallOff nested)
  doReturn 0

end Engine

namespace Trace

/-- The number that stands for the top of the stack. -/
def stackTop (heap : Heap) : Option StackSlot → Int64
  | some (.value v) => number v
  | some (.shared cell) => number (heap.cell cell)
  | _ => 0
where
  number : LuaValue → Int64
    | .integer n => n
    | .boolean true => 1
    | _ => 0

/-- Where a prototype starts when all code is laid out in one sequence. -/
def offset (program : CompiledProgram) (protoIdx : Nat) : Nat :=
  ((program.prototypes.take protoIdx).map fun proto => proto.code.length).sum

/-- A position as a `u32`. -/
def globalPc (program : CompiledProgram) (frame : CallFrame) : Nat :=
  (offset program frame.protoIdx + frame.pc) % 2 ^ 32

def step (program : CompiledProgram) (frame : CallFrame) (instr : Instruction)
    (before after : Machine) : TraceStep where
  pc := globalPc program frame
  opcode := instr.opcodeId
  operand := instr.operand
  stackTop := stackTop before.core.heap (before.stack.getLast?.map OwnedSlot.slot)
  nextPc := (after.frames.head?.map (globalPc program)).getD 0

end Trace

namespace Run

variable {H : Type} [HostInterface H]

/-- Run the innermost frame to its end, by a loop that runs until so many are left. -/
def runFrame (loop : Nat → Run H LuaValue) : Run H LuaValue := do
  let depth := (← Exec.get).machine.frames.length
  loop (depth - 1)

/-- Run until no more frames are left than the target says. -/
def runInner (program : CompiledProgram) : Nat → Nat → Run H LuaValue
  | 0, _ => Exec.throw .outOfFuel
  | fuel + 1, target => do
    if (← Exec.get).machine.frames.length ≤ target then embed Engine.popValue
    else do
      let (frame, instr) ← embed (Engine.fetch program)
      let done ← match instr with
        | none => embed (Engine.implicitReturn true)
        | some instr => do
          let turn ← embed (Engine.advance true frame)
          let done ← dispatch program (runFrame (runInner program fuel)) instr
          embed (Engine.complete turn)
          pure done
      match done with
      | some v => pure v
      | none => runInner program fuel target

/-- An error of an instruction is given the line it stems from. -/
def withLine (proto : FunctionProto) (pc : Nat) {α : Type} (m : Run H α) : Run H α := do
  match ← Exec.attempt m with
  | .ok a => pure a
  | .error (.raised e) => Exec.throw (.raised (.withLine ((proto.lines[pc]?).getD 0).toNat e))
  | .error stop => Exec.throw stop

omit [HostInterface H] in
theorem run_withLine {α : Type} (proto : FunctionProto) (pc : Nat)
    (m : Run H α) (s : System H) :
    (withLine proto pc m).run s = match m.run s with
      | (.error (.raised e), s') =>
        (.error (.raised (.withLine ((proto.lines[pc]?).getD 0).toNat e)), s')
      | (.error stop, s') => (.error stop, s')
      | (.ok a, s') => (.ok a, s') := by
  rw [withLine, Exec.run_bind, Exec.run_attempt]
  rcases m.run s with ⟨(_ | _ | _) | _, _⟩ <;> rfl

/-- One instruction of the main loop and the steps traced until after it. -/
def tracedDispatch (program : CompiledProgram) (inner : Run H LuaValue) (frame : CallFrame)
    (instr : Instruction) (trace : List TraceStep) :
    Run H (Option LuaValue × List TraceStep) := do
  let before := (← Exec.get).machine
  let proto ← embed (Engine.orPanic program.prototypes[frame.protoIdx]?)
  let turn ← embed (Engine.advance false frame)
  let done ← withLine proto frame.pc (dispatch program inner instr)
  embed (Engine.complete turn)
  let after := (← Exec.get).machine
  if before.config.recordTrace then
    pure (done, trace ++ [Trace.step program frame instr before after])
  else pure (done, trace)

/-- The loop of `execute`. -/
def mainLoop (program : CompiledProgram) :
    Nat → List TraceStep → Run H (LuaValue × List TraceStep)
  | 0, _ => Exec.throw .outOfFuel
  | fuel + 1, trace => do
    let (frame, instr) ← embed (Engine.fetch program)
    let (done, trace) ← match instr with
      | none => do pure (← embed (Engine.implicitReturn false), trace)
      | some instr => tracedDispatch program (runFrame (runInner program fuel)) frame instr trace
    match done with
    | some v => pure (v, trace)
    | none =>
      if (← Exec.get).machine.frames = [] then pure (.nil, trace)
      else mainLoop program fuel trace

def reset : Run H Unit :=
  Exec.modify fun s =>
    { machine := { s.machine with
        stack := []
        frames := []
        core := { s.machine.core with logs := [], history := [] } }
      registry := s.registry.reset
      transcript := [] }

/-- The frame of the top-level chunk, with the input as its first parameter. -/
def enterMain (proto : FunctionProto) (input : LuaValue) : Engine Unit := do
  Engine.pushFrame ⟨0, 0, 0, [], 1⟩
  Engine.pushNils proto.localCount.toNat
  if proto.paramCount ≥ 1 ∧ proto.localCount ≥ 1 then Engine.bindSlot 0 input else pure ()

/-- Fuel for any run: a turn of a loop costs gas or ends a frame, and a call costs more
gas than the end of its frame. -/
def fuelFor (gas : Nat) : Nat := 2 * gas + 2

/-- A run once its first frame is paid for. -/
def runMain (program : CompiledProgram) (proto : FunctionProto) (input : LuaValue) :
    Run H VmOutput := do
  embed (enterMain proto input)
  let gas := (← Exec.get).machine.core.gas.remaining
  let (returnValue, trace) ← mainLoop program (fuelFor gas) []
  let s ← Exec.get
  pure {
    returnValue
    logs := s.machine.core.logs
    gasUsed := s.machine.core.gas.used
    memoryUsed := s.machine.core.mem.used
    transcript := s.transcript
    trace }

def execute (program : CompiledProgram) (input : LuaValue) : Run H VmOutput := do
  reset
  let proto ← embed (Engine.orPanic program.prototypes[0]?)
  embed (Engine.lift (Vm.trackAlloc (AllocSize.stackFrame proto.localCount)))
  runMain program proto input

end Run

end Proveno
