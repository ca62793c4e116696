import Proveno.Compiler.Codegen
import Proveno.Semantics.Expressions

/-! What statements mean that work on local variables alone: declarations, assignments,
branches, loops, blocks and returns. Loops take fuel, and other statements have no
meaning. -/

namespace Proveno

/-- The variables of the open blocks with their values, the latest first. -/
abbrev Store := List (List (Bytes × LuaValue))

namespace Store

def find? (σ : Store) (name : Bytes) : Option (Bytes × LuaValue) :=
  σ.flatten.find? fun p => p.1 = name

/-- The value of a name: a name that denotes no variable stands for a builtin. -/
def get (σ : Store) (name : Bytes) : LuaValue :=
  (σ.find? name).elim (.string (sentinel name)) (·.2)

def setIn (name : Bytes) (v : LuaValue) : List (Bytes × LuaValue) → Option (List (Bytes × LuaValue))
  | [] => none
  | p :: rest => if p.1 = name then some ((name, v) :: rest) else (setIn name v rest).map (p :: ·)

/-- The store after an assignment, if there is such a variable. -/
def set (name : Bytes) (v : LuaValue) : Store → Option Store
  | [] => none
  | block :: rest =>
    match setIn name v block with
    | some block' => some (block' :: rest)
    | none => (set name v rest).map (block :: ·)

def declare (name : Bytes) (v : LuaValue) : Store → Store
  | [] => []
  | block :: rest => ((name, v) :: block) :: rest

/-- Without the latest variable. -/
def forget : Store → Store
  | [] => []
  | block :: rest => block.tail :: rest

end Store

inductive Outcome
  | normal
  | broke
  | returned (v : LuaValue)
  | failed (e : LuaError)

/-- What a statement does to the variables, and how it ends; nothing where it has no meaning
or the fuel is not enough. -/
abbrev Meaning := Store → Option (Outcome × Store)

namespace Meaning

def skip : Meaning := fun σ => some (.normal, σ)

/-- Out of the innermost loop. -/
def leave : Meaning := fun σ => some (.broke, σ)

def seq (m k : Meaning) : Meaning := fun σ =>
  match m σ with
  | some (.normal, σ') => k σ'
  | r => r

/-- A computation on values, and what is done with its result. -/
def given {α : Type} (r : Store → Except LuaError α) (k : α → Meaning) : Meaning := fun σ =>
  match r σ with
  | .ok x => k x σ
  | .error e => some (.failed e, σ)

def declare (name : Bytes) (v : LuaValue) : Meaning := fun σ => some (.normal, σ.declare name v)

def assign (name : Bytes) (v : LuaValue) : Meaning := fun σ =>
  (σ.set name v).map fun σ' => (.normal, σ')

/-- In a block of its own. -/
def enclosed (m : Meaning) : Meaning := fun σ => (m ([] :: σ)).map fun r => (r.1, r.2.tail)

/-- With one more variable in the innermost block. -/
def binding (name : Bytes) (v : LuaValue) (m : Meaning) : Meaning := fun σ =>
  (m (σ.declare name v)).map fun r => (r.1, r.2.forget)

/-- Turn after turn until one leaves. -/
def loop (turn : Meaning) : Nat → Meaning
  | 0 => fun _ => none
  | fuel + 1 => fun σ =>
    match turn σ with
    | some (.normal, σ') => loop turn fuel σ'
    | some (.broke, σ') => some (.normal, σ')
    | r => r

end Meaning

/-- How expressions are evaluated, given the values of the names. -/
abbrev Evaluator := (Bytes → LuaValue) → Expr → Except LuaError LuaValue

namespace Evaluator

/-- Chains of concatenations are joined once all of their parts are there. -/
def chained (heap : Heap) : Evaluator := fun ρ e => e.chained heap ρ

end Evaluator

section Constructs

open Meaning

variable (eval : Evaluator)

def Expr.evaluate (e : Expr) (k : LuaValue → Meaning) : Meaning :=
  given (fun σ => eval σ.get e) k

/-- The names are declared one by one, so that a value sees the names before its own; a value
without a name is not computed. -/
def Meaning.locals : List (Bytes × Span) → List Expr → Meaning
  | [], _ => skip
  | (name, _) :: names, [] => (declare name .nil).seq (locals names [])
  | (name, _) :: names, e :: values =>
    e.evaluate eval fun v => (declare name v).seq (locals names values)

/-- Whether a numeric loop is at its end. -/
def forOver (i limit step : LuaValue) : Except LuaError Bool := do
  let ord ← step.luaCmp (.integer 0)
  if ord.isLT then (i.luaCmp limit).map Ordering.isLT else (i.luaCmp limit).map Ordering.isGT

def forI : Bytes := ascii "(for_i)"
def forLimit : Bytes := ascii "(for_lim)"
def forStep : Bytes := ascii "(for_step)"

/-- One turn of a numeric loop, whose state is in variables of its own. -/
def Meaning.forTurn (var : Bytes) (block : Meaning) : Meaning :=
  given (fun σ => forOver (σ.get forI) (σ.get forLimit) (σ.get forStep)) fun ends =>
    if ends then leave
    else
      (given (fun σ => .ok (σ.get forI)) fun i => binding var i block).seq
        (given (fun σ => (σ.get forI).luaAdd (σ.get forStep)) fun i => assign forI i)

def Meaning.numericFor (var : Bytes) (start limit : Expr) (step : Expr) (block : Meaning)
    (fuel : Nat) : Meaning :=
  enclosed (start.evaluate eval fun i => (declare forI i).seq
    (limit.evaluate eval fun limit => (declare forLimit limit).seq
      (step.evaluate eval fun step => (declare forStep step).seq
        (loop (forTurn var block) fuel))))

end Constructs

section Syntax

open Meaning

variable (eval : Evaluator) (fuel : Nat)

mutual

def Stmt.meaning : Stmt → Meaning
  | .localDecl names values _ => locals eval names values
  | .assign (.name name _) value _ => value.evaluate eval fun v => assign name v
  | .ifStmt condition thenBlock clauses none _ =>
    condition.evaluate eval fun v =>
      if v.isTruthy then thenBlock.meaning else clausesMeaning clauses skip
  | .ifStmt condition thenBlock clauses (some elseBlock) _ =>
    condition.evaluate eval fun v =>
      if v.isTruthy then thenBlock.meaning else clausesMeaning clauses elseBlock.meaning
  | .whileStmt condition block _ =>
    loop (condition.evaluate eval fun v => if v.isTruthy then block.meaning else leave) fuel
  | .numericFor var _ start limit none block s =>
    Meaning.numericFor eval var start limit (.integer 1 s) block.meaning fuel
  | .numericFor var _ start limit (some step) block _ =>
    Meaning.numericFor eval var start limit step block.meaning fuel
  | .breakStmt _ => leave
  | .doBlock block _ => block.meaning
  | _ => fun _ => none

def clausesMeaning : List ElseifClause → Meaning → Meaning
  | [], otherwise => otherwise
  | .mk condition block _ :: rest, otherwise =>
    condition.evaluate eval fun v =>
      if v.isTruthy then block.meaning else clausesMeaning rest otherwise

def stmtsMeaning : List Stmt → Meaning
  | [] => skip
  | stmt :: rest => stmt.meaning.seq (stmtsMeaning rest)

def retMeaning : Option ReturnStmt → Meaning
  | none => skip
  | some (.mk none _) => fun σ => some (.returned .nil, σ)
  | some (.mk (some value) _) => value.evaluate eval fun v σ => some (.returned v, σ)

def Block.meaning : Block → Meaning
  | .mk stmts ret _ => enclosed ((stmtsMeaning stmts).seq (retMeaning ret))

end

end Syntax

section Plain

mutual

/-- Statements on local variables whose expressions call nothing and make nothing. -/
def Stmt.Plain : Stmt → Prop
  | .localDecl _ values _ => ∀ e ∈ values, e.Plain
  | .assign (.name _ _) value _ => value.Plain
  | .ifStmt condition thenBlock clauses none _ =>
    condition.Plain ∧ thenBlock.Plain ∧ PlainClauses clauses
  | .ifStmt condition thenBlock clauses (some elseBlock) _ =>
    condition.Plain ∧ thenBlock.Plain ∧ PlainClauses clauses ∧ elseBlock.Plain
  | .whileStmt condition block _ => condition.Plain ∧ block.Plain
  | .numericFor _ _ start limit none block _ => start.Plain ∧ limit.Plain ∧ block.Plain
  | .numericFor _ _ start limit (some step) block _ =>
    start.Plain ∧ limit.Plain ∧ step.Plain ∧ block.Plain
  | .breakStmt _ => True
  | .doBlock block _ => block.Plain
  | _ => False

def PlainClauses : List ElseifClause → Prop
  | [] => True
  | .mk condition block _ :: rest => condition.Plain ∧ block.Plain ∧ PlainClauses rest

def PlainStmts : List Stmt → Prop
  | [] => True
  | stmt :: rest => stmt.Plain ∧ PlainStmts rest

def PlainRet : Option ReturnStmt → Prop
  | none | some (.mk none _) => True
  | some (.mk (some value) _) => value.Plain

def Block.Plain : Block → Prop
  | .mk stmts ret _ => PlainStmts stmts ∧ PlainRet ret

end

end Plain

end Proveno
