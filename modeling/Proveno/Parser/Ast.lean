import Proveno.Types.Text

/-! Syntax trees: a block is a sequence of statements with at most one return at its end. -/

namespace Proveno

/-- Where a token stands: its first byte, the byte after it, and its line. -/
structure Span where
  start : Nat
  stop : Nat
  line : UInt32
  deriving DecidableEq, Inhabited

inductive BinOpKind
  | add | sub | mul | iDiv | mod
  | concat
  | eq | ne | lt | le | gt | ge
  | and | or
  deriving DecidableEq

inductive UnOpKind
  | neg | not | len
  deriving DecidableEq

mutual

inductive Expr
  | nil (span : Span)
  | true (span : Span)
  | false (span : Span)
  | integer (n : Int64) (span : Span)
  | stringLit (bytes : Bytes) (span : Span)
  | vararg (span : Span)
  | name (name : Bytes) (span : Span)
  | tableConstructor (fields : List TableField) (span : Span)
  | index (table key : Expr) (span : Span)
  | field (table : Expr) (name : Bytes) (span : Span)
  | methodCall (object : Expr) (method : Bytes) (methodSpan : Span) (args : List Expr)
      (span : Span)
  | call (func : Expr) (args : List Expr) (span : Span)
  | binOp (op : BinOpKind) (left right : Expr) (span : Span)
  | unOp (op : UnOpKind) (operand : Expr) (span : Span)
  | funcDef (body : FuncBody) (span : Span)

inductive TableField
  | explicitKey (key value : Expr) (span : Span)
  | namedKey (name : Bytes) (nameSpan : Span) (value : Expr) (span : Span)
  | positional (value : Expr) (span : Span)

/-- The parameters of a function and its block. -/
inductive FuncBody
  | mk (params : List (Bytes × Span)) (block : Block) (span : Span)

inductive Block
  | mk (stmts : List Stmt) (ret : Option ReturnStmt) (span : Span)

inductive ReturnStmt
  | mk (value : Option Expr) (span : Span)

inductive Stmt
  | localDecl (names : List (Bytes × Span)) (values : List Expr) (span : Span)
  | assign (target : AssignTarget) (value : Expr) (span : Span)
  | ifStmt (condition : Expr) (thenBlock : Block) (elseifClauses : List ElseifClause)
      (elseBlock : Option Block) (span : Span)
  | whileStmt (condition : Expr) (block : Block) (span : Span)
  | numericFor (var : Bytes) (varSpan : Span) (start limit : Expr) (step : Option Expr)
      (block : Block) (span : Span)
  | genericFor (vars : List (Bytes × Span)) (iterators : List Expr) (block : Block) (span : Span)
  | functionDecl (parts : List (Bytes × Span)) (method : Option (Bytes × Span))
      (func : FuncBody) (span : Span)
  | localFunctionDecl (name : Bytes) (nameSpan : Span) (func : FuncBody) (span : Span)
  | exprStmt (expr : Expr) (span : Span)
  | breakStmt (span : Span)
  | doBlock (block : Block) (span : Span)

inductive AssignTarget
  | name (name : Bytes) (span : Span)
  | index (table key : Expr) (span : Span)

inductive ElseifClause
  | mk (condition : Expr) (block : Block) (span : Span)

end

def Expr.span : Expr → Span
  | nil s | true s | false s | integer _ s | stringLit _ s | vararg s | name _ s
  | tableConstructor _ s | index _ _ s | field _ _ s | methodCall _ _ _ _ s | call _ _ s
  | binOp _ _ _ s | unOp _ _ s | funcDef _ s => s

def Expr.line (e : Expr) : UInt32 := e.span.line

def Block.span : Block → Span
  | mk _ _ s => s

end Proveno
