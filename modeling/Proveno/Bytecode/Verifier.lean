import Proveno.Compiler.Proto
import Proveno.Lib.DepthFirst
import Proveno.Lib.Worklist

/-! The bytecode verifier: the reference graph of the prototypes, the operands of each
instruction, and the depth of the operand stack at each instruction. -/

namespace Proveno.Verifier

def maxStackDepth : Nat := 256

inductive VerifyError
  | constantIndexOob (proto : UInt16) (pc : Nat) (index : UInt16)
  | protoIndexOob (proto : UInt16) (pc : Nat) (index : UInt16)
  | upvalueIndexOob (proto : UInt16) (pc : Nat) (index : UInt8)
  | jumpOutOfRange (proto : UInt16) (pc target : Nat)
  | stackUnderflow (proto : UInt16) (pc : Nat)
  | stackOverflow (proto : UInt16) (pc depth : Nat)
  | stackDepthMismatch (proto : UInt16) (pc expected got : Nat)
  | retStackMismatch (proto : UInt16) (pc expected got : Nat)
  | prototypeCycle (proto : UInt16)
  deriving DecidableEq

abbrev Check := Except (Failure VerifyError)

def reject {α : Type} (e : VerifyError) : Check α := .error (.raised e)

def orPanic {α : Type} : Option α → Check α
  | some a => .ok a
  | none => .error .panicked

/-- The prototypes that the constants refer to. -/
def protoRefs (proto : FunctionProto) : List Nat :=
  proto.constants.filterMap fun
    | .proto idx => some idx.toNat
    | _ => none

def checkProtoDag (program : CompiledProgram) : Check Unit :=
  match DepthFirst.search (program.prototypes.map protoRefs) with
  | .ok _ => .ok ()
  | .error (.raised child) => reject (.prototypeCycle (.ofNat child))
  | .error .panicked => .error .panicked
  | .error .outOfFuel => .error .outOfFuel

/-- The target of a jump, which may lie just past the last instruction. -/
def jumpTarget (pc : Nat) (offset : Int16) (codeLen : Nat) : Option Nat :=
  let target := (pc : Int) + 1 + offset.toInt
  if target < 0 ∨ codeLen < target.toNat then none else some target.toNat

def checkJumpTarget (protoIdx : UInt16) (pc : Nat) (offset : Int16) (codeLen : Nat) : Check Unit :=
  match jumpTarget pc offset codeLen with
  | some _ => .ok ()
  | none =>
    let raw := ((pc : Int) + 1 + offset.toInt) % 2 ^ 64
    reject (.jumpOutOfRange protoIdx pc raw.toNat)

def structuralCheck (program : CompiledProgram) (protoIdx : UInt16) (proto : FunctionProto)
    (instr : Instruction) (pc : Nat) : Check Unit :=
  match instr with
  | .pushK idx | .getField idx | .setField idx =>
    if proto.constants.length ≤ idx.toNat then reject (.constantIndexOob protoIdx pc idx)
    else .ok ()
  | .closure idx =>
    if program.prototypes.length ≤ idx.toNat then reject (.protoIndexOob protoIdx pc idx)
    else .ok ()
  | .loadUp idx | .storeUp idx =>
    if proto.upvalueCount ≤ idx then reject (.upvalueIndexOob protoIdx pc idx) else .ok ()
  | .jmp off | .jmpIf off | .jmpIfNot off | .and off | .or off
  | .iterInitSorted off | .iterInitArray off | .iterNext off =>
    checkJumpTarget protoIdx pc off proto.code.length
  | _ => .ok ()

def structuralChecks (program : CompiledProgram) (protoIdx : UInt16) (proto : FunctionProto) :
    Check Unit :=
  proto.code.zipIdx.forM fun entry => structuralCheck program protoIdx proto entry.1 entry.2

/-- The operands that an instruction without jump needs, and the change it makes. -/
def stackEffect : Instruction → Nat × Int
  | .nop => (0, 0)
  | .pushK _ | .pushNil | .pushTrue | .pushFalse => (0, 1)
  | .pop => (1, -1)
  | .dup => (1, 1)
  | .loadLocal _ => (0, 1)
  | .storeLocal _ => (1, -1)
  | .loadUp _ => (0, 1)
  | .storeUp _ => (1, -1)
  | .newTable => (0, 1)
  | .getTable => (2, -1)
  | .setTable => (3, -3)
  | .getField _ => (1, 0)
  | .setField _ => (2, -2)
  | .add | .sub | .mul | .iDiv | .mod | .eq | .ne | .lt | .le | .gt | .ge => (2, -1)
  | .neg | .not | .len => (1, 0)
  | .concat n => (n.toNat, -(n.toNat - 1))
  | .call argc => (argc.toNat + 1, -argc.toNat)
  | .pcall argc => (argc.toNat + 1, 1 - argc.toNat)
  | .closure _ => (0, 1)
  | .toolCall => (2, -1)
  | .log => (1, -1)
  | .ret _ | .error | .jmp _ | .jmpIf _ | .jmpIfNot _ | .and _ | .or _
  | .iterInitSorted _ | .iterInitArray _ | .iterNext _ => (0, 0)

def applyDelta (protoIdx : UInt16) (pc d : Nat) (delta : Int) : Check Nat :=
  let newD := (d : Int) + delta
  if newD < 0 then reject (.stackUnderflow protoIdx pc)
  else if maxStackDepth < newD.toNat then reject (.stackOverflow protoIdx pc newD.toNat)
  else .ok newD.toNat

abbrev Depths := Worklist.State Nat

/-- Schedule a position with a depth, which must agree with the depth it has. -/
def schedule (protoIdx : UInt16) : Nat → Nat → Depths → Check Depths :=
  Worklist.schedule (.stackDepthMismatch protoIdx)

def analyzeInstr (protoIdx : UInt16) (codeLen pc d : Nat) (s : Depths) :
    Instruction → Check Depths
  | .ret n =>
    if d ≠ n.toNat then reject (.retStackMismatch protoIdx pc n.toNat d) else .ok s
  | .error =>
    if d < 1 then reject (.stackUnderflow protoIdx pc) else .ok s
  | .jmp off => do
    let target ← orPanic (jumpTarget pc off codeLen)
    schedule protoIdx target d s
  | .jmpIf off | .jmpIfNot off =>
    if d < 1 then reject (.stackUnderflow protoIdx pc)
    else do
      let target ← orPanic (jumpTarget pc off codeLen)
      let s ← schedule protoIdx target (d - 1) s
      schedule protoIdx (pc + 1) (d - 1) s
  | .and off | .or off =>
    if d < 1 then reject (.stackUnderflow protoIdx pc)
    else do
      let target ← orPanic (jumpTarget pc off codeLen)
      let s ← schedule protoIdx target d s
      schedule protoIdx (pc + 1) d s
  | .iterInitSorted off | .iterInitArray off =>
    if d < 1 then reject (.stackUnderflow protoIdx pc)
    else do
      let target ← orPanic (jumpTarget pc off codeLen)
      let s ← schedule protoIdx target (d - 1) s
      schedule protoIdx (pc + 1) d s
  | .iterNext off =>
    if d < 1 then reject (.stackUnderflow protoIdx pc)
    else do
      let target ← orPanic (jumpTarget pc off codeLen)
      let s ← schedule protoIdx target (d - 1) s
      if maxStackDepth < d + 2 then reject (.stackOverflow protoIdx pc (d + 2))
      else schedule protoIdx (pc + 1) (d + 2) s
  | instr =>
    if d < (stackEffect instr).1 then reject (.stackUnderflow protoIdx pc)
    else do
      let dOut ← applyDelta protoIdx pc d (stackEffect instr).2
      if pc + 1 < codeLen then schedule protoIdx (pc + 1) dOut s else .ok s

/-- One turn of the worklist. -/
def analyze (protoIdx : UInt16) (proto : FunctionProto) (pc d : Nat) (s : Depths) :
    Check Depths := do
  let instr ← orPanic proto.code[pc]?
  analyzeInstr protoIdx proto.code.length pc d s instr

/-- The table of `stack_analysis` when it succeeds: the depth on entry to each
instruction reached. -/
def stackDepths (protoIdx : UInt16) (proto : FunctionProto) : Check (List (Option Nat)) :=
  if proto.code.length = 0 then .ok []
  else do
    let s ← schedule protoIdx 0 0 ⟨List.replicate proto.code.length none, []⟩
    Worklist.run (analyze protoIdx proto) (proto.code.length + 1) s

def stackAnalysis (protoIdx : UInt16) (proto : FunctionProto) : Check Unit := do
  let _ ← stackDepths protoIdx proto

def verifyProto (program : CompiledProgram) (protoIdx : UInt16) (proto : FunctionProto) :
    Check Unit := do
  structuralChecks program protoIdx proto
  stackAnalysis protoIdx proto

def verify (program : CompiledProgram) : Check Unit := do
  checkProtoDag program
  program.prototypes.zipIdx.forM fun entry => verifyProto program (.ofNat entry.2) entry.1

end Proveno.Verifier
