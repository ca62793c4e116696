import Proveno.Compiler.Proto
import Proveno.Lib.Exec

/-! The state of the code generator: the functions that are being compiled, each with the
blocks that are open in it, and the prototypes that are complete. -/

namespace Proveno

inductive CompileError
  | toolAsValue (line : UInt32)
  | indirectToolCall (line : UInt32)
  | variadicNotAllowed (line : UInt32)
  | tooManyLocals (line : UInt32)
  | tooManyUpvalues (line : UInt32)
  | tooManyConstants (line : UInt32)
  | tooManyPrototypes (line : UInt32)
  | breakOutsideLoop (line : UInt32)
  | exprStmtNotCall (line : UInt32)
  | multiReturnNotAllowed (line : UInt32)
  | bytecodeTooLarge (line : UInt32)
  | genericForNotIterator (line : UInt32)
  | unknownGlobal (name : Bytes) (line : UInt32)
  deriving DecidableEq

structure LocalVar where
  name : Bytes
  slot : UInt8
  /-- The compiler declares it for its own use. -/
  hidden : Bool
  deriving DecidableEq

/-- The blocks are innermost first, and so are the variables of each; the same holds of
the loops with what is popped before a jump out of them and the jumps out of them. -/
structure FunctionScope where
  proto : FunctionProto
  blocks : List (List LocalVar)
  upvalues : List (Bytes × UpvalueDesc)
  nextSlot : UInt8
  maxLocals : UInt8
  breakPatches : List (Nat × List Nat)
  /-- The slots of the temporaries in use, last first: only `points` depends on it. -/
  temps : List UInt8 := []

def FunctionScope.new (paramCount : UInt8) : FunctionScope where
  proto := .new paramCount
  blocks := []
  upvalues := []
  nextSlot := paramCount
  maxLocals := paramCount
  breakPatches := []

/-- What is in use in the current function where an instruction is emitted. -/
structure Point where
  locals : List LocalVar
  temps : List UInt8
  deriving DecidableEq

/-- How a name resolves inside the current function. -/
inductive VarRef
  | local (slot : UInt8)
  | upvalue (idx : UInt8)
  | global
  deriving DecidableEq

/-- The function that is compiled and those around it, innermost first. -/
structure Compiler where
  current : FunctionScope
  enclosing : List FunctionScope
  prototypes : List FunctionProto
  /-- Whether the build panics where arithmetic overflows. -/
  overflowChecks : Bool
  /-- One for each instruction that has been emitted: nothing is generated from it. -/
  points : List Point := []

namespace FunctionScope

def point (s : FunctionScope) : Point := ⟨s.blocks.flatten, s.temps⟩

def findLocal (s : FunctionScope) (name : Bytes) : Option LocalVar :=
  s.blocks.flatten.find? fun v => v.name = name

def findUpvalue (s : FunctionScope) (name : Bytes) : Option Nat :=
  s.upvalues.findIdx? fun u => u.1 = name

/-- A slot for one more variable. -/
def reserve (s : FunctionScope) (nextSlot : UInt8) : FunctionScope :=
  { s with nextSlot, maxLocals := max s.maxLocals nextSlot }

def pushLocal (s : FunctionScope) (v : LocalVar) : Option FunctionScope :=
  match s.blocks with
  | [] => none
  | block :: rest => some { s with blocks := (v :: block) :: rest }

def popBlock (s : FunctionScope) : FunctionScope :=
  match s.blocks with
  | [] => s
  | block :: rest =>
    { s with
      blocks := rest
      nextSlot := .ofNat (s.nextSlot.toNat - (UInt8.ofNat block.length).toNat) }

/-- The prototype of a function that is complete. -/
def finish (s : FunctionScope) : FunctionProto :=
  { s.proto with
    localCount := s.maxLocals
    upvalueCount := .ofNat s.upvalues.length
    upvalues := s.upvalues.map (·.2) }

end FunctionScope

namespace Instruction

/-- The jump with another offset. -/
def withOffset (off : Int16) : Instruction → Option Instruction
  | jmp _ => some (jmp off)
  | jmpIf _ => some (jmpIf off)
  | jmpIfNot _ => some (jmpIfNot off)
  | and _ => some (and off)
  | or _ => some (or off)
  | iterInitSorted _ => some (iterInitSorted off)
  | iterInitArray _ => some (iterInitArray off)
  | iterNext _ => some (iterNext off)
  | _ => none

end Instruction

abbrev Codegen := Exec (Failure CompileError) Compiler

namespace Compiler

def fail {α : Type} (e : CompileError) : Codegen α := Exec.throw (.raised e)

def orPanic {α : Type} : Option α → Codegen α
  | some a => pure a
  | none => Exec.throw .panicked

def currentScope : Codegen FunctionScope := ⟨fun c => (.ok c.current, c)⟩

def setScope (s : FunctionScope) : Codegen Unit :=
  Exec.modify fun c => { c with current := s }

/-- Addition of bytes, as the build has it. -/
def addU8 (a b : UInt8) : Codegen UInt8 := ⟨fun c =>
  if c.overflowChecks ∧ 256 ≤ a.toNat + b.toNat then (.error .panicked, c) else (.ok (a + b), c)⟩

def enterFunction (paramCount : UInt8) : Codegen Unit :=
  Exec.modify fun c =>
    { c with
      current := { FunctionScope.new paramCount with blocks := [[]] }
      enclosing := c.current :: c.enclosing }

def registerParam (name : Bytes) (slot : UInt8) : Codegen Unit := do
  setScope (← orPanic ((← currentScope).pushLocal ⟨name, slot, false⟩))

def exitFunction : Codegen FunctionProto := ⟨fun c =>
  (.ok c.current.finish,
    match c.enclosing with
    | [] => c
    | s :: rest => { c with current := s, enclosing := rest })⟩

def enterBlock : Codegen Unit :=
  Exec.modify fun c => { c with current := { c.current with blocks := [] :: c.current.blocks } }

def exitBlock : Codegen Unit := Exec.modify fun c => { c with current := c.current.popBlock }

/-- Some variables are declared by the compiler for its own use. -/
def declareLocal (name : Bytes) (line : UInt32) (hidden : Bool) : Codegen UInt8 := do
  let scope ← currentScope
  if scope.nextSlot ≥ 200 then fail (.tooManyLocals line)
  else
    let slot := scope.nextSlot
    let scope := scope.reserve (← addU8 slot 1)
    setScope (← orPanic (scope.pushLocal ⟨name, slot, hidden⟩))
    pure slot

def allocTempSlot : Codegen UInt8 := do
  let scope ← currentScope
  let slot := scope.nextSlot
  setScope { scope.reserve (← addU8 slot 1) with temps := slot :: scope.temps }
  pure slot

def freeTempSlot : Codegen Unit :=
  Exec.modify fun c =>
    { c with
      current := { c.current with
        nextSlot := .ofNat (c.current.nextSlot.toNat - 1)
        temps := c.current.temps.tail } }

def pushBreakScope (extraPops : Nat) : Codegen Unit :=
  Exec.modify fun c =>
    { c with current := { c.current with breakPatches := (extraPops, []) :: c.current.breakPatches } }

def popBreakScope : Codegen (List Nat) := ⟨fun c =>
  match c.current.breakPatches with
  | [] => (.ok [], c)
  | (_, patches) :: rest => (.ok patches, { c with current := { c.current with breakPatches := rest } })⟩

/-- The descriptor by which a function takes a variable of the functions around it, each
of which takes it from the next. -/
def findUpvalueInEnclosing (name : Bytes) :
    List FunctionScope → Option (UpvalueDesc × List FunctionScope)
  | [] => none
  | scope :: rest =>
    match scope.findLocal name with
    | some v => some (.local v.slot, scope :: rest)
    | none =>
      match scope.findUpvalue name with
      | some i => some (.upvalue (.ofNat i), scope :: rest)
      | none =>
        (findUpvalueInEnclosing name rest).map fun (desc, rest) =>
          (.upvalue (.ofNat scope.upvalues.length),
            { scope with upvalues := scope.upvalues ++ [(name, desc)] } :: rest)

def resolve (name : Bytes) (c : Compiler) : VarRef × Compiler :=
  match c.current.findLocal name with
  | some v => (.local v.slot, c)
  | none =>
    match c.current.findUpvalue name with
    | some i => (.upvalue (.ofNat i), c)
    | none =>
      match findUpvalueInEnclosing name c.enclosing with
      | some (desc, enclosing) =>
        (.upvalue (.ofNat c.current.upvalues.length),
          { c with
            current := { c.current with upvalues := c.current.upvalues ++ [(name, desc)] }
            enclosing })
      | none => (.global, c)

def resolveVar (name : Bytes) : Codegen VarRef := ⟨fun c =>
  (.ok (c.resolve name).1, (c.resolve name).2)⟩

def emit (instr : Instruction) (line : UInt32) : Codegen Nat := ⟨fun c =>
  (.ok c.current.proto.code.length,
    { c with
      current := { c.current with
        proto := { c.current.proto with
          code := c.current.proto.code ++ [instr]
          lines := c.current.proto.lines ++ [line] } }
      points := c.points ++ [c.current.point] })⟩

def emitPlaceholder (line : UInt32) : Codegen Nat := emit (.jmp 0) line

def codeLength : Codegen Nat := ⟨fun c => (.ok c.current.proto.code.length, c)⟩

/-- The offset is cut to the width that a jump has for it. -/
def patchJumpTo (idx target : Nat) : Codegen Unit := do
  let scope ← currentScope
  let offset := Int16.ofInt ((target : Int) - idx - 1)
  let instr ← orPanic (scope.proto.code[idx]?.bind (Instruction.withOffset offset))
  setScope { scope with proto := { scope.proto with code := scope.proto.code.set idx instr } }

def patchJump (idx : Nat) : Codegen Unit := do
  patchJumpTo idx (← codeLength)

def patchJumpsTo (target : Nat) : List Nat → Codegen Unit
  | [] => pure ()
  | idx :: rest => do
    patchJumpTo idx target
    patchJumpsTo target rest

/-- Jumps to the current end of the code. -/
def patchJumps : List Nat → Codegen Unit
  | [] => pure ()
  | idx :: rest => do
    patchJump idx
    patchJumps rest

/-- A jump back to the start of a loop. -/
def emitBackJump (loopStart : Nat) (line : UInt32) : Codegen Unit := do
  let _ ← emit (.jmp (.ofInt ((loopStart : Int) - (← codeLength) - 1))) line

def addConstant (k : Constant) (line : UInt32) : Codegen UInt16 := do
  let scope ← currentScope
  match scope.proto.constants.findIdx? (· = k) with
  | some i => pure (.ofNat i)
  | none =>
    let idx := scope.proto.constants.length
    if idx ≥ 65535 then fail (.tooManyConstants line)
    else
      setScope { scope with
        proto := { scope.proto with constants := scope.proto.constants ++ [k] } }
      pure (.ofNat idx)

def addStringConstant (s : Bytes) (line : UInt32) : Codegen UInt16 := addConstant (.string s) line

def addIntConstant (n : Int64) (line : UInt32) : Codegen UInt16 := addConstant (.integer n) line

def pushProto (proto : FunctionProto) : Codegen Nat := do
  let idx := (← Exec.get).prototypes.length
  if idx ≥ 65535 then fail (.tooManyPrototypes 0)
  else
    Exec.modify fun c => { c with prototypes := c.prototypes ++ [proto] }
    pure idx

end Compiler

end Proveno
