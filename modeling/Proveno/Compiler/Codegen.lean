import Proveno.Compiler.Scope
import Proveno.Parser.Ast

/-! The code generator. A definition that compiles a construct takes the computations that
compile its parts, and the recursion over the syntax tree comes last. -/

namespace Proveno

namespace Expr

def isToolRef : Expr → Bool
  | name n _ => n = ascii "tool"
  | _ => Bool.false

/-- What is called is `tool.call`. -/
def isToolCall : Expr → Bool
  | field inner fieldName _ => inner.isToolRef && fieldName = ascii "call"
  | _ => Bool.false

end Expr

inductive IterKind
  | sorted
  | array
  deriving DecidableEq

def iterKindOf (name : Bytes) : Option IterKind :=
  if name = ascii "pairs_sorted" ∨ name = ascii "pairs" then some .sorted
  else if name = ascii "ipairs" then some .array
  else none

def UnOpKind.instruction : UnOpKind → Instruction
  | neg => .neg
  | not => .not
  | len => .len

/-- The instruction of an operator that evaluates both of its operands. -/
def BinOpKind.instruction : BinOpKind → Option Instruction
  | add => some .add
  | sub => some .sub
  | mul => some .mul
  | iDiv => some .iDiv
  | mod => some .mod
  | eq => some .eq
  | ne => some .ne
  | lt => some .lt
  | le => some .le
  | gt => some .gt
  | ge => some .ge
  | concat | and | or => none

def IterKind.init : IterKind → Instruction
  | sorted => .iterInitSorted 0
  | array => .iterInitArray 0

/-- The modules, and the builtins that are values. -/
def builtinNames : List Bytes :=
  ["string", "math", "table", "json", "decimal", "tostring", "tonumber", "type", "select",
    "unpack"].map ascii

/-- What the machine knows a builtin by. -/
def sentinel (name : Bytes) : Bytes := ascii "__" ++ name

/-- What is made of an expression, of its parts where it is a chain of concatenations, and
of its arguments where it is a call. -/
structure Parts (α : Type) where
  whole : α
  parts : List α
  args : List α

def Parts.single {α : Type} (a : α) : Parts α := ⟨a, [a], []⟩

abbrev Compiled := Parts (Codegen Unit)

namespace Compiler

/-- Instructions one after the other. -/
def emitAll (line : UInt32) : List Instruction → Codegen Unit
  | [] => pure ()
  | instr :: rest => do
    let _ ← emit instr line
    emitAll line rest

/-- The computations one after the other. -/
def inOrder : List (Codegen Unit) → Codegen Unit
  | [] => pure ()
  | m :: rest => do
    m
    inOrder rest

def compileName (name : Bytes) (line : UInt32) : Codegen Unit := do
  if name = ascii "tool" then fail (.toolAsValue line)
  else if (iterKindOf name).isSome then fail (.toolAsValue line)
  else
    match ← resolveVar name with
    | .local slot => emitAll line [.loadLocal slot]
    | .upvalue idx => emitAll line [.loadUp idx]
    | .global =>
      if name ∈ builtinNames then
        let idx ← addStringConstant (sentinel name) line
        emitAll line [.pushK idx]
      else fail (.unknownGlobal name line)

def compileConstant (k : Constant) (line : UInt32) : Codegen Unit := do
  let idx ← addConstant k line
  emitAll line [.pushK idx]

def compileField (table : Expr) (compileTable : Codegen Unit) (name : Bytes) (line : UInt32) :
    Codegen Unit := do
  if table.isToolRef ∧ name = ascii "call" then fail (.toolAsValue line)
  else
    compileTable
    let idx ← addStringConstant name line
    emitAll line [.getField idx]

def compileIndex (compileTable compileKey : Codegen Unit) (line : UInt32) : Codegen Unit := do
  compileTable
  compileKey
  emitAll line [.getTable]

def compileNamedKey (name : Bytes) (compileValue : Codegen Unit) (line : UInt32) :
    Codegen Unit := do
  emitAll line [.dup]
  let idx ← addStringConstant name line
  compileValue
  emitAll line [.setField idx]

def compileExplicitKey (compileKey compileValue : Codegen Unit) (line : UInt32) :
    Codegen Unit := do
  emitAll line [.dup]
  compileKey
  compileValue
  emitAll line [.setTable]

def compilePositional (autoIdx : Int64) (compileValue : Codegen Unit) (line : UInt32) :
    Codegen Unit := do
  emitAll line [.dup]
  let kidx ← addIntConstant autoIdx line
  emitAll line [.pushK kidx]
  compileValue
  emitAll line [.setTable]

/-- The second operand is evaluated only where the jump is not taken. -/
def compileShortCircuit (jump : Instruction) (compileLeft compileRight : Codegen Unit)
    (line : UInt32) : Codegen Unit := do
  compileLeft
  let idx ← emit jump line
  emitAll line [.pop]
  compileRight
  patchJump idx

def compileStrict (instr : Instruction) (compileLeft compileRight : Codegen Unit)
    (line : UInt32) : Codegen Unit := do
  compileLeft
  compileRight
  emitAll line [instr]

/-- The parts of a chain, in order, joined by one instruction. -/
def compileConcatExpr (compileArgs : List (Codegen Unit)) (line : UInt32) : Codegen Unit := do
  inOrder compileArgs
  emitAll line [.concat (.ofNat compileArgs.length)]

def compileUnOp (op : UnOpKind) (compileOperand : Codegen Unit) (line : UInt32) :
    Codegen Unit := do
  compileOperand
  emitAll line [op.instruction]

def compileToolCall (compileArgs : List (Codegen Unit)) (line : UInt32) : Codegen Unit :=
  match compileArgs with
  | [compileName, compileRequest] => do
    compileName
    compileRequest
    emitAll line [.toolCall]
  | _ => fail (.toolAsValue line)

/-- Of the arguments only the first is compiled. -/
def compileFirst (compileArgs : List (Codegen Unit)) (line : UInt32) : Codegen Unit :=
  match compileArgs with
  | [] => emitAll line [.pushNil]
  | compileArg :: _ => compileArg

def compilePcallTwoValues (compileArgs : List (Codegen Unit)) (line : UInt32) :
    Codegen Unit := do
  match compileArgs with
  | [] => emitAll line [.pushNil, .pcall 0]
  | compileCallee :: rest =>
    compileCallee
    inOrder rest
    emitAll line [.pcall (.ofNat rest.length)]

def compilePcall (compileArgs : List (Codegen Unit)) (line : UInt32) : Codegen Unit := do
  compilePcallTwoValues compileArgs line
  emitAll line [.pop]

def compileError (compileArgs : List (Codegen Unit)) (line : UInt32) : Codegen Unit := do
  compileFirst compileArgs line
  emitAll line [.error]

def compileLog (compileArgs : List (Codegen Unit)) (line : UInt32) : Codegen Unit := do
  compileFirst compileArgs line
  emitAll line [.log, .pushNil]

def compileNormalCall (compileFunc : Codegen Unit) (compileArgs : List (Codegen Unit))
    (line : UInt32) : Codegen Unit := do
  compileFunc
  inOrder compileArgs
  emitAll line [.call (.ofNat compileArgs.length)]

/-- The source checks once more, after the names, that what is called is not `tool.call`. -/
def compileCall (func : Expr) (compileFunc : Codegen Unit) (compileArgs : List (Codegen Unit))
    (line : UInt32) : Codegen Unit :=
  if func.isToolCall then compileToolCall compileArgs line
  else
    match func with
    | .name name span =>
      if name = ascii "tool" then fail (.toolAsValue span.line)
      else if name = ascii "pcall" then compilePcall compileArgs line
      else if name = ascii "error" then compileError compileArgs line
      else if name = ascii "print" ∨ name = ascii "log" then compileLog compileArgs line
      else compileNormalCall compileFunc compileArgs line
    | _ => compileNormalCall compileFunc compileArgs line

def compileMethodCall (compileObject : Codegen Unit) (method : Bytes)
    (compileArgs : List (Codegen Unit)) (line : UInt32) : Codegen Unit := do
  compileObject
  let tmp ← allocTempSlot
  emitAll line [.dup, .storeLocal tmp]
  let idx ← addStringConstant method line
  emitAll line [.getField idx, .loadLocal tmp]
  freeTempSlot
  inOrder compileArgs
  let argc ← addU8 1 (.ofNat compileArgs.length)
  emitAll line [.call argc]

def registerParams : List Bytes → UInt8 → Codegen Unit
  | [], _ => pure ()
  | name :: rest, slot => do
    registerParam name slot
    registerParams rest (← addU8 slot 1)

def endsInRet : List Instruction → Bool
  | code =>
    match code.getLast? with
    | some (.ret _) => true
    | _ => false

/-- The body of a function whose parameters come after the extra ones. -/
def compileFunctionBody (extraParams : List Bytes) (params : List (Bytes × Span))
    (compileBlock : Codegen Unit) (line : UInt32) : Codegen UInt16 := do
  enterFunction (.ofNat (extraParams.length + params.length))
  registerParams (extraParams ++ params.map (·.1)) 0
  compileBlock
  if endsInRet (← currentScope).proto.code then pure () else emitAll line [.ret 0]
  let proto ← exitFunction
  let idx ← pushProto proto
  pure (.ofNat idx)

def compileFuncDef (compileBody : Codegen UInt16) (line : UInt32) : Codegen Unit := do
  let idx ← compileBody
  emitAll line [.closure idx]

/-- Each of the names with the value at its place, or nil where there is none. -/
def compileLocals (line : UInt32) : List (Bytes × Span) → List (Codegen Unit) → Codegen Unit
  | [], _ => pure ()
  | (name, span) :: names, compileValues => do
    match compileValues with
    | [] => emitAll line [.pushNil]
    | compileValue :: _ => compileValue
    let slot ← declareLocal name span.line false
    emitAll line [.storeLocal slot]
    compileLocals line names compileValues.tail

/-- The two values of a protected call, and nil for any further name. -/
def compilePcallLocals (a b : Bytes × Span) (names : List (Bytes × Span))
    (compileArgs : List (Codegen Unit)) (callLine line : UInt32) : Codegen Unit := do
  compilePcallTwoValues compileArgs callLine
  let slotA ← declareLocal a.1 a.2.line false
  let slotB ← declareLocal b.1 b.2.line false
  emitAll line [.storeLocal slotB, .storeLocal slotA]
  compileLocals line names []

/-- A protected call that is the only value gives two of the names their values. -/
def compileLocalDecl (names : List (Bytes × Span)) (values : List Expr)
    (compiled : List Compiled) (line : UInt32) : Codegen Unit :=
  match names, values, compiled with
  | a :: b :: rest, [.call (.name name _) _ span], [⟨_, _, compileArgs⟩] =>
    if name = ascii "pcall" then compilePcallLocals a b rest compileArgs span.line line
    else compileLocals line names (compiled.map (·.whole))
  | _, _, _ => compileLocals line names (compiled.map (·.whole))

def compileAssignName (name : Bytes) (span : Span) (compileValue : Codegen Unit)
    (line : UInt32) : Codegen Unit := do
  let var ← resolveVar name
  compileValue
  match var with
  | .local slot => emitAll line [.storeLocal slot]
  | .upvalue idx => emitAll line [.storeUp idx]
  | .global => fail (.unknownGlobal name span.line)

/-- A key that is a string literal is named by the instruction. -/
def compileAssignIndex (compileTable : Codegen Unit) (key : Expr)
    (compileKey compileValue : Codegen Unit) (line : UInt32) : Codegen Unit := do
  compileTable
  match key with
  | .stringLit bytes _ =>
    let idx ← addStringConstant bytes line
    compileValue
    emitAll line [.setField idx]
  | _ =>
    compileKey
    compileValue
    emitAll line [.setTable]

/-- The clauses of an `if`, with the jumps to its end. -/
def compileElseifs : List (Codegen Unit × Codegen Unit × UInt32) → Codegen (List Nat)
  | [] => pure []
  | (compileCondition, compileBlock, line) :: rest => do
    compileCondition
    let jmpFalse ← emit (.jmpIfNot 0) line
    compileBlock
    let jmpEnd ← emitPlaceholder line
    patchJump jmpFalse
    let endJumps ← compileElseifs rest
    pure (jmpEnd :: endJumps)

def compileIf (compileCondition compileThen : Codegen Unit)
    (clauses : List (Codegen Unit × Codegen Unit × UInt32)) (compileElse : Option (Codegen Unit))
    (line : UInt32) : Codegen Unit := do
  compileCondition
  let jmpFalse ← emit (.jmpIfNot 0) line
  compileThen
  let endJump ←
    if clauses ≠ [] ∨ compileElse.isSome then do
      let jmpEnd ← emitPlaceholder line
      pure [jmpEnd]
    else pure []
  patchJump jmpFalse
  let endJumps ← compileElseifs clauses
  match compileElse with
  | some compileBlock => compileBlock
  | none => pure ()
  patchJumps (endJump ++ endJumps)

def compileWhile (compileCondition compileBlock : Codegen Unit) (line : UInt32) :
    Codegen Unit := do
  let loopStart ← codeLength
  pushBreakScope 0
  compileCondition
  let jmpExit ← emit (.jmpIfNot 0) line
  compileBlock
  emitBackJump loopStart line
  patchJump jmpExit
  patchJumps (← popBreakScope)

/-- The step of a numeric loop is 1 unless it is given. -/
def compileStep (step : Option (Codegen Unit)) (line : UInt32) : Codegen Unit :=
  match step with
  | some compileStep => compileStep
  | none => compileConstant (.integer 1) line

/-- The check at the start of each turn, which has to know the sign of the step: its jumps
out of the loop. -/
def compileLoopCheck (iSlot limSlot stepSlot : UInt8) (line : UInt32) :
    Codegen (Nat × Nat) := do
  let zeroIdx ← addIntConstant 0 line
  emitAll line [.loadLocal stepSlot, .pushK zeroIdx, .lt]
  let jmpPositive ← emit (.jmpIfNot 0) line
  emitAll line [.loadLocal iSlot, .loadLocal limSlot, .lt]
  let jmpExitNeg ← emit (.jmpIf 0) line
  let jmpContinue ← emitPlaceholder line
  patchJump jmpPositive
  emitAll line [.loadLocal iSlot, .loadLocal limSlot, .gt]
  let jmpExitPos ← emit (.jmpIf 0) line
  patchJump jmpContinue
  pure (jmpExitNeg, jmpExitPos)

def compileHidden (name : Bytes) (compileValue : Codegen Unit) (line : UInt32) :
    Codegen UInt8 := do
  compileValue
  let slot ← declareLocal name line true
  emitAll line [.storeLocal slot]
  pure slot

def compileNumericFor (var : Bytes) (varSpan : Span) (compileStart compileLimit : Codegen Unit)
    (step : Option (Codegen Unit)) (compileBlock : Codegen Unit) (line : UInt32) :
    Codegen Unit := do
  enterBlock
  let iSlot ← compileHidden (ascii "(for_i)") compileStart line
  let limSlot ← compileHidden (ascii "(for_lim)") compileLimit line
  let stepSlot ← compileHidden (ascii "(for_step)") (compileStep step line) line
  let varSlot ← declareLocal var varSpan.line false
  let loopStart ← codeLength
  pushBreakScope 0
  let (jmpExitNeg, jmpExitPos) ← compileLoopCheck iSlot limSlot stepSlot line
  emitAll line [.loadLocal iSlot, .storeLocal varSlot]
  compileBlock
  emitAll line [.loadLocal iSlot, .loadLocal stepSlot, .add, .storeLocal iSlot]
  emitBackJump loopStart line
  patchJump jmpExitNeg
  patchJump jmpExitPos
  patchJumps (← popBreakScope)
  exitBlock

/-- The variables of a generic loop: at least two, of which those that are missing are the
compiler's. -/
def declareLoopVars (vars : List (Bytes × Span)) (line : UInt32) :
    Codegen (UInt8 × UInt8) := do
  let kSlot ←
    match vars with
    | (key, span) :: _ => declareLocal key span.line false
    | [] => declareLocal (ascii "_") line true
  let vSlot ←
    match vars with
    | _ :: (value, span) :: _ => declareLocal value span.line false
    | _ => declareLocal (ascii "_v") line true
  pure (kSlot, vSlot)

def compileGenericLoop (kind : IterKind) (vars : List (Bytes × Span))
    (compileTable compileBlock : Codegen Unit) (line : UInt32) : Codegen Unit := do
  compileTable
  pushBreakScope 1
  let initIdx ← emit kind.init line
  let loopTop ← codeLength
  let nextIdx ← emit (.iterNext 0) line
  enterBlock
  let (kSlot, vSlot) ← declareLoopVars vars line
  emitAll line [.storeLocal vSlot, .storeLocal kSlot]
  compileBlock
  exitBlock
  emitBackJump loopTop line
  let loopEnd ← codeLength
  patchJumpTo nextIdx loopEnd
  patchJumpTo initIdx loopEnd
  patchJumpsTo loopEnd (← popBreakScope)

/-- The loop takes one iterator, a call by name with a table as its first argument. -/
def compileGenericFor (vars : List (Bytes × Span)) (iterators : List Expr)
    (compiled : List Compiled) (compileBlock : Codegen Unit) (line : UInt32) : Codegen Unit :=
  match iterators, compiled with
  | [.call (.name name _) _ _], [⟨_, _, compileTable :: _⟩] =>
    match iterKindOf name with
    | some kind => compileGenericLoop kind vars compileTable compileBlock line
    | none => fail (.genericForNotIterator line)
  | _, _ => fail (.genericForNotIterator line)

/-- The base of a dotted name must be a variable. -/
def emitBase (name : Bytes) (var : VarRef) (line : UInt32) : Codegen Unit :=
  match var with
  | .local slot => emitAll line [.loadLocal slot]
  | .upvalue idx => emitAll line [.loadUp idx]
  | .global => fail (.unknownGlobal name line)

def emitFields (line : UInt32) : List Bytes → Codegen Unit
  | [] => pure ()
  | part :: rest => do
    let idx ← addStringConstant part line
    emitAll line [.getField idx]
    emitFields line rest

/-- The closure on the stack goes into a variable, or into a field of what the other parts
of the name denote; the parts are all of the name, its method last. -/
def storeFuncName (parts : List Bytes) (line : UInt32) : Codegen Unit := do
  match parts with
  | [] => Exec.throw .panicked
  | [name] =>
    match ← resolveVar name with
    | .local slot => emitAll line [.storeLocal slot]
    | .upvalue idx => emitAll line [.storeUp idx]
    | .global =>
      let slot ← declareLocal name line false
      emitAll line [.storeLocal slot]
  | base :: part :: rest =>
    let var ← resolveVar base
    emitBase base var line
    emitFields line (part :: rest).dropLast
    let tmp ← allocTempSlot
    emitAll line [.storeLocal tmp]
    emitBase base var line
    emitFields line (part :: rest).dropLast
    emitAll line [.loadLocal tmp]
    freeTempSlot
    let idx ← addStringConstant ((part :: rest).getLast nofun) line
    emitAll line [.setField idx]

def compileFunctionDecl (parts : List (Bytes × Span)) (method : Option (Bytes × Span))
    (compileBody : List Bytes → Codegen UInt16) (line : UInt32) : Codegen Unit := do
  let idx ← compileBody (if method.isSome then [ascii "self"] else [])
  emitAll line [.closure idx]
  storeFuncName (parts.map (·.1) ++ (method.map (·.1)).toList) line

def compileLocalFunctionDecl (name : Bytes) (nameSpan : Span) (compileBody : Codegen UInt16)
    (line : UInt32) : Codegen Unit := do
  let slot ← declareLocal name nameSpan.line false
  emitAll line [.pushNil, .storeLocal slot]
  let idx ← compileBody
  emitAll line [.closure idx, .storeLocal slot]

def compileExprStmt (expr : Expr) (compileExpr : Codegen Unit) (line : UInt32) :
    Codegen Unit := do
  match expr with
  | .call _ _ _ | .methodCall _ _ _ _ _ =>
    compileExpr
    emitAll line [.pop]
  | _ => fail (.exprStmtNotCall line)

def compileBreak (line : UInt32) : Codegen Unit := do
  match (← currentScope).breakPatches with
  | [] => fail (.breakOutsideLoop line)
  | (extraPops, _) :: _ =>
    emitAll line (List.replicate extraPops .pop)
    let idx ← emitPlaceholder line
    let scope ← currentScope
    match scope.breakPatches with
    | [] => Exec.throw .panicked
    | (pops, patches) :: rest =>
      setScope { scope with breakPatches := (pops, patches ++ [idx]) :: rest }

def compileReturn (value : Option (Codegen Unit)) (line : UInt32) : Codegen Unit := do
  match value with
  | none => emitAll line [.ret 0]
  | some compileExpr =>
    compileExpr
    emitAll line [.ret 1]

def compileBlockWith (compileStmts compileRet : Codegen Unit) : Codegen Unit := do
  enterBlock
  compileStmts
  compileRet
  exitBlock

end Compiler

open Compiler

mutual

def Expr.compiled : Expr → Compiled
  | .nil s => .single (emitAll s.line [.pushNil])
  | .true s => .single (emitAll s.line [.pushTrue])
  | .false s => .single (emitAll s.line [.pushFalse])
  | .integer n s => .single (compileConstant (.integer n) s.line)
  | .stringLit bytes s => .single (compileConstant (.string bytes) s.line)
  | .vararg s => .single (fail (.variadicNotAllowed s.line))
  | .name name s => .single (compileName name s.line)
  | .tableConstructor fields s => .single do
    emitAll s.line [.newTable]
    compileFields fields 1
  | .index table key s => .single (compileIndex table.compiled.whole key.compiled.whole s.line)
  | .field table name s => .single (compileField table table.compiled.whole name s.line)
  | .methodCall object method _ args s =>
    .single (compileMethodCall object.compiled.whole method
      ((compileExprs args).map (·.whole)) s.line)
  | .call func args s =>
    let compileArgs := (compileExprs args).map (·.whole)
    let m := compileCall func func.compiled.whole compileArgs s.line
    ⟨m, [m], compileArgs⟩
  | .binOp op left right s =>
    match op with
    | .and =>
      .single (compileShortCircuit (.and 0) left.compiled.whole right.compiled.whole s.line)
    | .or =>
      .single (compileShortCircuit (.or 0) left.compiled.whole right.compiled.whole s.line)
    | .concat =>
      let parts := left.compiled.parts ++ right.compiled.parts
      ⟨compileConcatExpr parts s.line, parts, []⟩
    | op =>
      match op.instruction with
      | some instr =>
        .single (compileStrict instr left.compiled.whole right.compiled.whole s.line)
      | none => .single (Exec.throw .panicked)
  | .unOp op operand s => .single (compileUnOp op operand.compiled.whole s.line)
  | .funcDef body s => .single (compileFuncDef (body.compile []) s.line)

def compileExprs : List Expr → List Compiled
  | [] => []
  | e :: rest => e.compiled :: compileExprs rest

def compileFields : List TableField → Int64 → Codegen Unit
  | [], _ => pure ()
  | .namedKey name _ value s :: rest, autoIdx => do
    compileNamedKey name value.compiled.whole s.line
    compileFields rest autoIdx
  | .explicitKey key value s :: rest, autoIdx => do
    compileExplicitKey key.compiled.whole value.compiled.whole s.line
    compileFields rest autoIdx
  | .positional value s :: rest, autoIdx => do
    compilePositional autoIdx value.compiled.whole s.line
    compileFields rest (autoIdx + 1)

def FuncBody.compile : FuncBody → List Bytes → Codegen UInt16
  | .mk params block s, extraParams =>
    compileFunctionBody extraParams params block.compile s.line

def Block.compile : Block → Codegen Unit
  | .mk stmts ret _ => compileBlockWith (compileStmts stmts) (compileRet ret)

def compileStmts : List Stmt → Codegen Unit
  | [] => pure ()
  | stmt :: rest => do
    stmt.compile
    compileStmts rest

def compileRet : Option ReturnStmt → Codegen Unit
  | none => pure ()
  | some (.mk none s) => compileReturn none s.line
  | some (.mk (some value) s) => compileReturn (some value.compiled.whole) s.line

def compileClauses : List ElseifClause → List (Codegen Unit × Codegen Unit × UInt32)
  | [] => []
  | .mk condition block s :: rest =>
    (condition.compiled.whole, block.compile, s.line) :: compileClauses rest

def Stmt.compile : Stmt → Codegen Unit
  | .localDecl names values s => compileLocalDecl names values (compileExprs values) s.line
  | .assign (.name name span) value s => compileAssignName name span value.compiled.whole s.line
  | .assign (.index table key _) value s =>
    compileAssignIndex table.compiled.whole key key.compiled.whole value.compiled.whole s.line
  | .ifStmt condition thenBlock clauses none s =>
    compileIf condition.compiled.whole thenBlock.compile (compileClauses clauses) none s.line
  | .ifStmt condition thenBlock clauses (some elseBlock) s =>
    compileIf condition.compiled.whole thenBlock.compile (compileClauses clauses)
      (some elseBlock.compile) s.line
  | .whileStmt condition block s => compileWhile condition.compiled.whole block.compile s.line
  | .numericFor var varSpan start limit none block s =>
    compileNumericFor var varSpan start.compiled.whole limit.compiled.whole none block.compile
      s.line
  | .numericFor var varSpan start limit (some step) block s =>
    compileNumericFor var varSpan start.compiled.whole limit.compiled.whole
      (some step.compiled.whole) block.compile s.line
  | .genericFor vars iterators block s =>
    compileGenericFor vars iterators (compileExprs iterators) block.compile s.line
  | .functionDecl parts method func s => compileFunctionDecl parts method func.compile s.line
  | .localFunctionDecl name nameSpan func s =>
    compileLocalFunctionDecl name nameSpan (func.compile []) s.line
  | .exprStmt expr s => compileExprStmt expr expr.compiled.whole s.line
  | .breakStmt s => compileBreak s.line
  | .doBlock block _ => block.compile

end

namespace Compiler

/-- The state in which the top-level chunk is compiled, whose prototype has its place. -/
def start (overflowChecks : Bool) : Compiler where
  current := { FunctionScope.new 0 with blocks := [[]] }
  enclosing := []
  prototypes := [.new 0]
  overflowChecks

def compileChunk (block : Block) : Codegen FunctionProto := do
  block.compile
  emitAll block.span.line [.ret 0]
  exitFunction

/-- The program of a block. -/
def compile (overflowChecks : Bool) (block : Block) : Except (Failure CompileError) CompiledProgram :=
  match (compileChunk block).run (start overflowChecks) with
  | (.ok proto, c) => .ok ⟨c.prototypes.set 0 proto⟩
  | (.error e, _) => .error e

end Compiler

end Proveno
