import Proveno.Compiler.Codegen

/-! Code whose operands stand for themselves: variables and constants are named, functions
are written out, and distances and counts are exact. The symbolic code of a block says what
the code generator is for, without its patches, its pools and its widths. -/

namespace Proveno

inductive JumpKind
  | jmp | jmpIf | jmpIfNot | and | or | iterInitSorted | iterInitArray | iterNext
  deriving DecidableEq

/-- A variable, and how many functions out it is declared. -/
structure Var where
  level : Nat
  decl : LocalVar
  deriving DecidableEq

inductive Asm
  | plain (instr : Instruction)
  | constant (k : Constant)
  | getField (name : Bytes)
  | setField (name : Bytes)
  | load (x : Var)
  | store (x : Var)
  | jump (kind : JumpKind) (distance : Int)
  /-- A jump to the end of the innermost loop, which is not known yet. -/
  | breakOut
  | call (argc : Nat)
  | pcall (argc : Nat)
  | concat (n : Nat)
  /-- A function, with the variables that the function around has when it is made. -/
  | closure (locals : List LocalVar) (params : Nat) (code : List Asm)

def JumpKind.instruction (off : Int16) : JumpKind → Instruction
  | jmp => .jmp off
  | jmpIf => .jmpIf off
  | jmpIfNot => .jmpIfNot off
  | and => .and off
  | or => .or off
  | iterInitSorted => .iterInitSorted off
  | iterInitArray => .iterInitArray off
  | iterNext => .iterNext off

/-- The variables of a function at some point of it, and for each of the loops around the
point what is popped before a jump out of it. -/
structure Locals where
  blocks : List (List LocalVar)
  nextSlot : UInt8
  loops : List Nat

/-- The variables at some point of a program, by function from the inside. -/
structure Env where
  current : Locals
  enclosing : List Locals

namespace Locals

def visible (l : Locals) : List LocalVar := l.blocks.flatten

def find (l : Locals) (name : Bytes) : Option LocalVar := l.visible.find? fun v => v.name = name

/-- The variables of a function that has just been entered. -/
def ofParams (paramCount : UInt8) : Locals := ⟨[[]], paramCount, []⟩

def push (l : Locals) (v : LocalVar) : Locals :=
  match l.blocks with
  | [] => l
  | block :: rest => { l with blocks := (v :: block) :: rest }

def declare (l : Locals) (name : Bytes) (hidden : Bool) : Locals :=
  { l with nextSlot := l.nextSlot + 1 }.push ⟨name, l.nextSlot, hidden⟩

def pop (l : Locals) : Locals :=
  match l.blocks with
  | [] => l
  | block :: rest =>
    { l with
      blocks := rest
      nextSlot := .ofNat (l.nextSlot.toNat - (UInt8.ofNat block.length).toNat) }

end Locals

namespace Env

def lookup (name : Bytes) : List Locals → Option Var
  | [] => none
  | l :: rest =>
    match l.find name with
    | some v => some ⟨0, v⟩
    | none => (lookup name rest).map fun x => ⟨x.level + 1, x.decl⟩

/-- The variable that a name denotes. -/
def resolve (env : Env) (name : Bytes) : Option Var := lookup name (env.current :: env.enclosing)

end Env

abbrev Gen := StateM Env

namespace Gen

/-- Jumps to the end of a loop, which is so far from the first of the instructions. -/
def closeLoop : Int → List Asm → List Asm
  | _, [] => []
  | n, .breakOut :: rest => .jump .jmp (n - 1) :: closeLoop (n - 1) rest
  | n, asm :: rest => asm :: closeLoop (n - 1) rest

def modifyLocals (f : Locals → Locals) : Gen Unit :=
  modify fun env => { env with current := f env.current }

/-- The slot that the next variable is given. -/
def nextSlot : Gen UInt8 := return (← get).current.nextSlot

def declare (name : Bytes) (hidden : Bool) : Gen UInt8 := do
  let slot ← nextSlot
  modifyLocals (·.declare name hidden)
  pure slot

def allocTemp : Gen UInt8 := do
  let slot ← nextSlot
  modifyLocals fun l => { l with nextSlot := l.nextSlot + 1 }
  pure slot

def freeTemp : Gen Unit :=
  modifyLocals fun l => { l with nextSlot := .ofNat (l.nextSlot.toNat - 1) }

def enterBlock : Gen Unit := modifyLocals fun l => { l with blocks := [] :: l.blocks }

def exitBlock : Gen Unit := modifyLocals (·.pop)

def enterLoop (extraPops : Nat) : Gen Unit :=
  modifyLocals fun l => { l with loops := extraPops :: l.loops }

def exitLoop : Gen Unit := modifyLocals fun l => { l with loops := l.loops.tail }

def inOrder : List (Gen (List Asm)) → Gen (List Asm)
  | [] => pure []
  | g :: rest => do
    let code ← g
    let codes ← inOrder rest
    pure (code ++ codes)

def name (name : Bytes) : Gen (List Asm) := do
  match (← get).resolve name with
  | some x => pure [.load x]
  | none => pure [.constant (.string (sentinel name))]

def field (table : Gen (List Asm)) (name : Bytes) : Gen (List Asm) := do
  let table ← table
  pure (table ++ [.getField name])

def index (table key : Gen (List Asm)) : Gen (List Asm) := do
  let table ← table
  let key ← key
  pure (table ++ key ++ [.plain .getTable])

def namedKey (name : Bytes) (value : Gen (List Asm)) : Gen (List Asm) := do
  let value ← value
  pure ([.plain .dup] ++ value ++ [.setField name])

def explicitKey (key value : Gen (List Asm)) : Gen (List Asm) := do
  let key ← key
  let value ← value
  pure ([.plain .dup] ++ key ++ value ++ [.plain .setTable])

def positional (autoIdx : Int64) (value : Gen (List Asm)) : Gen (List Asm) := do
  let value ← value
  pure ([.plain .dup, .constant (.integer autoIdx)] ++ value ++ [.plain .setTable])

def shortCircuit (kind : JumpKind) (left right : Gen (List Asm)) : Gen (List Asm) := do
  let left ← left
  let right ← right
  pure (left ++ [.jump kind (right.length + 1), .plain .pop] ++ right)

def strict (instr : Instruction) (left right : Gen (List Asm)) : Gen (List Asm) := do
  let left ← left
  let right ← right
  pure (left ++ right ++ [.plain instr])

def concatExpr (parts : List (Gen (List Asm))) : Gen (List Asm) := do
  let codes ← inOrder parts
  pure (codes ++ [.concat parts.length])

def unOp (op : UnOpKind) (operand : Gen (List Asm)) : Gen (List Asm) := do
  let operand ← operand
  pure (operand ++ [.plain op.instruction])

def toolCall (args : List (Gen (List Asm))) : Gen (List Asm) := do
  let codes ← inOrder args
  pure (codes ++ [.plain .toolCall])

def first (args : List (Gen (List Asm))) : Gen (List Asm) :=
  match args with
  | [] => pure [.plain .pushNil]
  | arg :: _ => arg

def pcallTwoValues (args : List (Gen (List Asm))) : Gen (List Asm) :=
  match args with
  | [] => pure [.plain .pushNil, .pcall 0]
  | callee :: rest => do
    let callee ← callee
    let codes ← inOrder rest
    pure (callee ++ codes ++ [.pcall rest.length])

def pcall (args : List (Gen (List Asm))) : Gen (List Asm) := do
  let code ← pcallTwoValues args
  pure (code ++ [.plain .pop])

def error (args : List (Gen (List Asm))) : Gen (List Asm) := do
  let code ← first args
  pure (code ++ [.plain .error])

def log (args : List (Gen (List Asm))) : Gen (List Asm) := do
  let code ← first args
  pure (code ++ [.plain .log, .plain .pushNil])

def normalCall (func : Gen (List Asm)) (args : List (Gen (List Asm))) : Gen (List Asm) := do
  let func ← func
  let codes ← inOrder args
  pure (func ++ codes ++ [.call args.length])

def call (func : Expr) (funcCode : Gen (List Asm)) (args : List (Gen (List Asm))) :
    Gen (List Asm) :=
  if func.isToolCall then toolCall args
  else
    match func with
    | .name name _ =>
      if name = ascii "pcall" then pcall args
      else if name = ascii "error" then error args
      else if name = ascii "print" ∨ name = ascii "log" then log args
      else normalCall funcCode args
    | _ => normalCall funcCode args

def methodCall (object : Gen (List Asm)) (method : Bytes) (args : List (Gen (List Asm))) :
    Gen (List Asm) := do
  let object ← object
  let tmp ← allocTemp
  freeTemp
  let codes ← inOrder args
  pure (object ++ [.plain .dup, .plain (.storeLocal tmp), .getField method,
    .plain (.loadLocal tmp)] ++ codes ++ [.call (1 + args.length)])

def registerParams : List Bytes → UInt8 → Gen Unit
  | [], _ => pure ()
  | name :: rest, slot => do
    modifyLocals (·.push ⟨name, slot, false⟩)
    registerParams rest (slot + 1)

def endsInRet (code : List Asm) : Bool :=
  match code.getLast? with
  | some (.plain (.ret _)) => true
  | _ => false

def withRet (code : List Asm) : List Asm :=
  if endsInRet code then code else code ++ [.plain (.ret 0)]

def functionBody (params : List Bytes) (block : Gen (List Asm)) : Gen Asm := do
  let env ← get
  set (Env.mk (.ofParams (.ofNat params.length)) (env.current :: env.enclosing))
  registerParams params 0
  let code ← block
  set env
  pure (.closure env.current.visible params.length (withRet code))

def funcDef (body : Gen Asm) : Gen (List Asm) := do
  let closure ← body
  pure [closure]

def storeNew (name : Bytes) (hidden : Bool) : Gen (List Asm) := do
  let slot ← declare name hidden
  pure [.plain (.storeLocal slot)]

def locals : List (Bytes × Span) → List (Gen (List Asm)) → Gen (List Asm)
  | [], _ => pure []
  | (name, _) :: names, values => do
    let value ← first (values.take 1)
    let store ← storeNew name false
    let rest ← locals names values.tail
    pure (value ++ store ++ rest)

def pcallLocals (a b : Bytes × Span) (names : List (Bytes × Span))
    (args : List (Gen (List Asm))) : Gen (List Asm) := do
  let call ← pcallTwoValues args
  let slotA ← declare a.1 false
  let slotB ← declare b.1 false
  let rest ← locals names []
  pure (call ++ [.plain (.storeLocal slotB), .plain (.storeLocal slotA)] ++ rest)

def assignName (name : Bytes) (value : Gen (List Asm)) : Gen (List Asm) := do
  let env ← get
  let value ← value
  match env.resolve name with
  | some x => pure (value ++ [.store x])
  | none => pure value

def assignIndex (table : Gen (List Asm)) (key : Expr) (keyCode value : Gen (List Asm)) :
    Gen (List Asm) := do
  let table ← table
  match key with
  | .stringLit bytes _ =>
    let value ← value
    pure (table ++ value ++ [.setField bytes])
  | _ =>
    let key ← keyCode
    let value ← value
    pure (table ++ key ++ value ++ [.plain .setTable])

/-- The clauses before the code that they jump over once one of them is done. -/
def layoutClauses : List (List Asm × List Asm) → List Asm → List Asm
  | [], rest => rest
  | (condition, block) :: clauses, rest =>
    let after := layoutClauses clauses rest
    condition ++ [.jump .jmpIfNot (block.length + 1)] ++ block ++
      [.jump .jmp after.length] ++ after

def elseifs : List (Gen (List Asm) × Gen (List Asm)) → Gen (List (List Asm × List Asm))
  | [] => pure []
  | (condition, block) :: rest => do
    let condition ← condition
    let block ← block
    let clauses ← elseifs rest
    pure ((condition, block) :: clauses)

def optional : Option (Gen (List Asm)) → Gen (List Asm)
  | none => pure []
  | some g => g

def ifStmt (condition thenBlock : Gen (List Asm)) (clauses : List (Gen (List Asm) × Gen (List Asm)))
    (elseBlock : Option (Gen (List Asm))) : Gen (List Asm) := do
  let condition ← condition
  let thenBlock ← thenBlock
  let clauseCodes ← elseifs clauses
  let elseCode ← optional elseBlock
  let after := layoutClauses clauseCodes elseCode
  if clauses ≠ [] ∨ elseBlock.isSome then
    pure (condition ++ [.jump .jmpIfNot (thenBlock.length + 1)] ++ thenBlock ++
      [.jump .jmp after.length] ++ after)
  else pure (condition ++ [.jump .jmpIfNot thenBlock.length] ++ thenBlock)

/-- The body of a loop, with the jump back to so many instructions before its end. -/
def closedLoop (body : List Asm) (back : Nat) : List Asm :=
  closeLoop (body.length + 1) body ++ [.jump .jmp (-(back : Int) - 1)]

def whileStmt (condition block : Gen (List Asm)) : Gen (List Asm) := do
  enterLoop 0
  let condition ← condition
  let block ← block
  exitLoop
  let body := condition ++ [.jump .jmpIfNot (block.length + 1)] ++ block
  pure (closedLoop body body.length)

def step (step : Option (Gen (List Asm))) : Gen (List Asm) :=
  match step with
  | some code => code
  | none => pure [.constant (.integer 1)]

/-- The check of a numeric loop whose end is so far from the end of the check. -/
def loopCheck (iSlot limSlot stepSlot : UInt8) (rest : Nat) : List Asm :=
  [.plain (.loadLocal stepSlot), .constant (.integer 0), .plain .lt, .jump .jmpIfNot 5,
    .plain (.loadLocal iSlot), .plain (.loadLocal limSlot), .plain .lt, .jump .jmpIf (rest + 5),
    .jump .jmp 4, .plain (.loadLocal iSlot), .plain (.loadLocal limSlot), .plain .gt,
    .jump .jmpIf rest]

def hidden (name : Bytes) (value : Gen (List Asm)) : Gen (List Asm × UInt8) := do
  let value ← value
  let slot ← declare name true
  pure (value ++ [.plain (.storeLocal slot)], slot)

def numericFor (var : Bytes) (start limit : Gen (List Asm)) (stepCode : Option (Gen (List Asm)))
    (block : Gen (List Asm)) : Gen (List Asm) := do
  enterBlock
  let (start, iSlot) ← hidden (ascii "(for_i)") start
  let (limit, limSlot) ← hidden (ascii "(for_lim)") limit
  let (stepValue, stepSlot) ← hidden (ascii "(for_step)") (step stepCode)
  let varSlot ← declare var false
  enterLoop 0
  let block ← block
  exitLoop
  exitBlock
  let body := loopCheck iSlot limSlot stepSlot (block.length + 7) ++
    [.plain (.loadLocal iSlot), .plain (.storeLocal varSlot)] ++ block ++
    [.plain (.loadLocal iSlot), .plain (.loadLocal stepSlot), .plain .add,
      .plain (.storeLocal iSlot)]
  pure (start ++ limit ++ stepValue ++ closedLoop body body.length)

def loopVars (vars : List (Bytes × Span)) : Gen (UInt8 × UInt8) := do
  let kSlot ←
    match vars with
    | (key, _) :: _ => declare key false
    | [] => declare (ascii "_") true
  let vSlot ←
    match vars with
    | _ :: (value, _) :: _ => declare value false
    | _ => declare (ascii "_v") true
  pure (kSlot, vSlot)

def IterKind.jumpKind : IterKind → JumpKind
  | .sorted => .iterInitSorted
  | .array => .iterInitArray

def genericLoop (kind : IterKind) (vars : List (Bytes × Span)) (table block : Gen (List Asm)) :
    Gen (List Asm) := do
  let table ← table
  enterLoop 1
  enterBlock
  let (kSlot, vSlot) ← loopVars vars
  let block ← block
  exitBlock
  exitLoop
  let body := [.jump (IterKind.jumpKind kind) (block.length + 4),
    .jump .iterNext (block.length + 3), .plain (.storeLocal vSlot),
    .plain (.storeLocal kSlot)] ++ block
  pure (table ++ closedLoop body (body.length - 1))

def baseOf (x : Option Var) : List Asm :=
  match x with
  | some x => [.load x]
  | none => []

def storeFuncName (parts : List Bytes) : Gen (List Asm) := do
  match parts with
  | [] => pure []
  | [name] =>
    match (← get).resolve name with
    | some x => pure [.store x]
    | none => storeNew name false
  | base :: part :: rest =>
    let x := (← get).resolve base
    let path := baseOf x ++ (part :: rest).dropLast.map .getField
    let tmp ← allocTemp
    freeTemp
    pure (path ++ [.plain (.storeLocal tmp)] ++ path ++
      [.plain (.loadLocal tmp), .setField ((part :: rest).getLast (List.cons_ne_nil _ _))])

def functionDecl (parts : List (Bytes × Span)) (method : Option (Bytes × Span))
    (body : List Bytes → Gen Asm) : Gen (List Asm) := do
  let closure ← body (if method.isSome then [ascii "self"] else [])
  let store ← storeFuncName (parts.map (·.1) ++ (method.map (·.1)).toList)
  pure ([closure] ++ store)

def localFunctionDecl (name : Bytes) (body : Gen Asm) : Gen (List Asm) := do
  let slot ← declare name false
  let closure ← body
  pure [.plain .pushNil, .plain (.storeLocal slot), closure, .plain (.storeLocal slot)]

def exprStmt (expr : Gen (List Asm)) : Gen (List Asm) := do
  let expr ← expr
  pure (expr ++ [.plain .pop])

def breakStmt : Gen (List Asm) := do
  let pops := (← get).current.loops.headD 0
  pure (List.replicate pops (.plain .pop) ++ [.breakOut])

def ret (value : Option (Gen (List Asm))) : Gen (List Asm) := do
  match value with
  | none => pure [.plain (.ret 0)]
  | some value =>
    let value ← value
    pure (value ++ [.plain (.ret 1)])

def block (stmts ret : Gen (List Asm)) : Gen (List Asm) := do
  enterBlock
  let stmts ← stmts
  let ret ← ret
  exitBlock
  pure (stmts ++ ret)

def tableConstructor (fields : Gen (List Asm)) : Gen (List Asm) := do
  let fields ← fields
  pure ([.plain .newTable] ++ fields)

/-- Code for the first of two parts, and then for the second. -/
def seq (g h : Gen (List Asm)) : Gen (List Asm) := do
  let code ← g
  let rest ← h
  pure (code ++ rest)

def localDecl (names : List (Bytes × Span)) (values : List Expr)
    (codes : List (Parts (Gen (List Asm)))) : Gen (List Asm) :=
  match names, values, codes with
  | a :: b :: rest, [.call (.name name _) _ _], [⟨_, _, args⟩] =>
    if name = ascii "pcall" then pcallLocals a b rest args
    else locals names (codes.map (·.whole))
  | _, _, _ => locals names (codes.map (·.whole))

def genericFor (vars : List (Bytes × Span)) (iterators : List Expr)
    (codes : List (Parts (Gen (List Asm)))) (block : Gen (List Asm)) : Gen (List Asm) :=
  match iterators, codes with
  | [.call (.name name _) _ _], [⟨_, _, table :: _⟩] =>
    match iterKindOf name with
    | some kind => genericLoop kind vars table block
    | none => pure []
  | _, _ => pure []

end Gen

mutual

def Expr.gen : Expr → Parts (Gen (List Asm))
  | .nil _ => .single (pure [.plain .pushNil])
  | .true _ => .single (pure [.plain .pushTrue])
  | .false _ => .single (pure [.plain .pushFalse])
  | .integer n _ => .single (pure [.constant (.integer n)])
  | .stringLit bytes _ => .single (pure [.constant (.string bytes)])
  | .vararg _ => .single (pure [])
  | .name name _ => .single (Gen.name name)
  | .tableConstructor fields _ => .single (Gen.tableConstructor (genFields fields 1))
  | .index table key _ => .single (Gen.index table.gen.whole key.gen.whole)
  | .field table name _ => .single (Gen.field table.gen.whole name)
  | .methodCall object method _ args _ =>
    .single (Gen.methodCall object.gen.whole method ((genExprs args).map (·.whole)))
  | .call func args _ =>
    let args := (genExprs args).map (·.whole)
    let g := Gen.call func func.gen.whole args
    ⟨g, [g], args⟩
  | .binOp op left right _ =>
    match op with
    | .and => .single (Gen.shortCircuit .and left.gen.whole right.gen.whole)
    | .or => .single (Gen.shortCircuit .or left.gen.whole right.gen.whole)
    | .concat =>
      let parts := left.gen.parts ++ right.gen.parts
      ⟨Gen.concatExpr parts, parts, []⟩
    | op =>
      match op.instruction with
      | some instr => .single (Gen.strict instr left.gen.whole right.gen.whole)
      | none => .single (pure [])
  | .unOp op operand _ => .single (Gen.unOp op operand.gen.whole)
  | .funcDef body _ => .single (Gen.funcDef (body.gen []))

def genExprs : List Expr → List (Parts (Gen (List Asm)))
  | [] => []
  | e :: rest => e.gen :: genExprs rest

def genFields : List TableField → Int64 → Gen (List Asm)
  | [], _ => pure []
  | .namedKey name _ value _ :: rest, autoIdx =>
    Gen.seq (Gen.namedKey name value.gen.whole) (genFields rest autoIdx)
  | .explicitKey key value _ :: rest, autoIdx =>
    Gen.seq (Gen.explicitKey key.gen.whole value.gen.whole) (genFields rest autoIdx)
  | .positional value _ :: rest, autoIdx =>
    Gen.seq (Gen.positional autoIdx value.gen.whole) (genFields rest (autoIdx + 1))

def FuncBody.gen : FuncBody → List Bytes → Gen Asm
  | .mk params block _, extraParams =>
    Gen.functionBody (extraParams ++ params.map (·.1)) block.gen

def Block.gen : Block → Gen (List Asm)
  | .mk stmts ret _ => Gen.block (genStmts stmts) (genRet ret)

def genStmts : List Stmt → Gen (List Asm)
  | [] => pure []
  | stmt :: rest => Gen.seq stmt.gen (genStmts rest)

def genRet : Option ReturnStmt → Gen (List Asm)
  | none => pure []
  | some (.mk none _) => Gen.ret none
  | some (.mk (some value) _) => Gen.ret (some value.gen.whole)

def genClauses : List ElseifClause → List (Gen (List Asm) × Gen (List Asm))
  | [] => []
  | .mk condition block _ :: rest => (condition.gen.whole, block.gen) :: genClauses rest

def Stmt.gen : Stmt → Gen (List Asm)
  | .localDecl names values _ => Gen.localDecl names values (genExprs values)
  | .assign (.name name _) value _ => Gen.assignName name value.gen.whole
  | .assign (.index table key _) value _ =>
    Gen.assignIndex table.gen.whole key key.gen.whole value.gen.whole
  | .ifStmt condition thenBlock clauses none _ =>
    Gen.ifStmt condition.gen.whole thenBlock.gen (genClauses clauses) none
  | .ifStmt condition thenBlock clauses (some elseBlock) _ =>
    Gen.ifStmt condition.gen.whole thenBlock.gen (genClauses clauses) (some elseBlock.gen)
  | .whileStmt condition block _ => Gen.whileStmt condition.gen.whole block.gen
  | .numericFor var _ start limit none block _ =>
    Gen.numericFor var start.gen.whole limit.gen.whole none block.gen
  | .numericFor var _ start limit (some step) block _ =>
    Gen.numericFor var start.gen.whole limit.gen.whole (some step.gen.whole) block.gen
  | .genericFor vars iterators block _ =>
    Gen.genericFor vars iterators (genExprs iterators) block.gen
  | .functionDecl parts method func _ => Gen.functionDecl parts method func.gen
  | .localFunctionDecl name _ func _ => Gen.localFunctionDecl name (func.gen [])
  | .exprStmt expr _ => Gen.exprStmt expr.gen.whole
  | .breakStmt _ => Gen.breakStmt
  | .doBlock block _ => block.gen

end

/-- The symbolic code of the top-level chunk. -/
def Block.symbolic (block : Block) : List Asm :=
  (block.gen ⟨.ofParams 0, []⟩).1 ++ [.plain (.ret 0)]

end Proveno
