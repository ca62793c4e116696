import Proveno.Parser.Lexer

/-! The recursive descent over the tokens. A production takes the productions that it calls
recursively as an argument, so that the depth of these calls can be bounded from outside. -/

namespace Proveno

structure Parser where
  tokens : List SpannedToken
  pos : Nat

abbrev Parse (α : Type) := Exec (Failure ParseError) Parser α

/-- The productions that are called while they are under way. -/
structure Productions where
  block : Parse Block
  binop : Nat → Parse Expr
  unop : Parse Expr

namespace Parser

def disallowedIdents : List String :=
  ["debug", "io", "os", "package", "require", "load", "dofile", "loadfile", "loadstring",
    "collectgarbage", "setmetatable", "getmetatable", "rawget", "rawset", "setfenv", "getfenv",
    "coroutine"]

def isDisallowed (name : Bytes) : Bool := disallowedIdents.any fun s => ascii s == name

def quoted (text : Bytes) : Bytes := ascii "`" ++ text ++ ascii "`"

def tokenText : Token → String
  | .kwAnd => "and"
  | .kwBreak => "break"
  | .kwDo => "do"
  | .kwElse => "else"
  | .kwElseif => "elseif"
  | .kwEnd => "end"
  | .kwFalse => "false"
  | .kwFor => "for"
  | .kwFunction => "function"
  | .kwIf => "if"
  | .kwIn => "in"
  | .kwLocal => "local"
  | .kwNil => "nil"
  | .kwNot => "not"
  | .kwOr => "or"
  | .kwReturn => "return"
  | .kwThen => "then"
  | .kwTrue => "true"
  | .kwWhile => "while"
  | .plus => "+"
  | .minus => "-"
  | .star => "*"
  | .slashSlash => "//"
  | .percent => "%"
  | .dotDot => ".."
  | .dotDotDot => "..."
  | .hash => "#"
  | .eq => "=="
  | .tildeEq => "~="
  | .lt => "<"
  | .ltEq => "<="
  | .gt => ">"
  | .gtEq => ">="
  | .assign => "="
  | .lParen => "("
  | .rParen => ")"
  | .lBrace => "\x7b"
  | .rBrace => "\x7d"
  | .lBracket => "["
  | .rBracket => "]"
  | .semicolon => ";"
  | .colon => ":"
  | .comma => ","
  | .dot => "."
  | .integer _ | .stringLit _ | .ident _ | .eof => ""

def tokenDescription : Token → Bytes
  | .eof => ascii "end of file"
  | .ident n => quoted n
  | .integer n => intText n
  | .stringLit _ => ascii "string literal"
  | t => quoted (ascii (tokenText t))

section Tokens

def raise {α : Type} (e : ParseError) : Parse α := Exec.throw (.raised e)

def peek : Parse SpannedToken := do
  let p ← Exec.get
  match p.tokens[p.pos]? with
  | some t => pure t
  | none => Exec.throw .panicked

def peek2 : Parse (Option SpannedToken) := do
  let p ← Exec.get
  pure p.tokens[p.pos + 1]?

/-- The last token is not passed. -/
def advance : Parse SpannedToken := do
  let t ← peek
  Exec.modify fun p => if p.pos + 1 < p.tokens.length then { p with pos := p.pos + 1 } else p
  pure t

def check (t : Token) : Parse Bool := do
  pure (decide ((← peek).token = t))

def atEof : Parse Bool := check .eof

def currentSpan : Parse Span := do
  pure (← peek).span

def unexpected {α : Type} (expected : String) : Parse α := do
  let t ← peek
  raise (.unexpectedToken t.span expected (tokenDescription t.token))

def expect (expected : Token) (label : String) : Parse Span := do
  if (← peek).token = expected then pure (← advance).span else unexpected label

def expectIdent : Parse (Bytes × Span) := do
  match (← peek).token with
  | .ident name => pure (name, (← advance).span)
  | _ => unexpected "identifier"

def expectEof : Parse Unit := do
  if ← atEof then pure () else unexpected "end of file"

def isBlockEnd (t : Token) : Bool :=
  match t with
  | .kwEnd | .kwElse | .kwElseif | .kwReturn | .eof => true
  | _ => false

def atBlockEnd : Parse Bool := do
  pure (isBlockEnd (← peek).token)

/-- A loop each turn of which passes a token. -/
def loop {α β : Type} (turn : α → Parse (α ⊕ β)) (a : α) : Parse β := do
  Exec.loop turn ((← Exec.get).tokens.length + 1) a

/-- `while self.check(&Token::Comma) { self.advance(); items.push(…) }` -/
def commaSeparated {α : Type} (item : Parse α) (items : List α) : Parse (List α) :=
  loop (fun items => do
    if ← check .comma then
      let _ ← advance
      let next ← item
      return .inl (items ++ [next])
    else return .inr items) items

end Tokens

def binOpOf : Token → Option (BinOpKind × Nat × Bool)
  | .kwOr => some (.or, 1, false)
  | .kwAnd => some (.and, 2, false)
  | .lt => some (.lt, 3, false)
  | .ltEq => some (.le, 3, false)
  | .gt => some (.gt, 3, false)
  | .gtEq => some (.ge, 3, false)
  | .eq => some (.eq, 3, false)
  | .tildeEq => some (.ne, 3, false)
  | .dotDot => some (.concat, 4, true)
  | .plus => some (.add, 5, false)
  | .minus => some (.sub, 5, false)
  | .star => some (.mul, 6, false)
  | .slashSlash => some (.iDiv, 6, false)
  | .percent => some (.mod, 6, false)
  | _ => none

/-- The operator at hand with its precedence, and whether it is right associative. -/
def peekBinop : Parse (Option (BinOpKind × Nat × Bool)) := do
  pure (binOpOf (← peek).token)

def unOpOf : Token → Option UnOpKind
  | .kwNot => some .not
  | .minus => some .neg
  | .hash => some .len
  | _ => none

section Expressions

variable (self : Productions)

def parseExpr : Parse Expr := self.binop 0

def parseParamTurn (params : List (Bytes × Span)) :
    Parse (List (Bytes × Span) ⊕ List (Bytes × Span)) := do
  if ← check .dotDotDot then
    raise (.variadicNotAllowed (← advance).span)
  else
    let param ← expectIdent
    if ← check .comma then
      let _ ← advance
      return .inl (params ++ [param])
    else return .inr (params ++ [param])

def parseParams : Parse (List (Bytes × Span)) := do
  if ← check .rParen then pure [] else loop parseParamTurn []

def parseFuncBody : Parse FuncBody := do
  let span ← currentSpan
  let _ ← expect .lParen "`(`"
  let params ← parseParams
  let _ ← expect .rParen "`)`"
  let block ← self.block
  let _ ← expect .kwEnd "`end`"
  pure (.mk params block span)

def parseTableField : Parse TableField := do
  let span ← currentSpan
  if ← check .lBracket then
    let _ ← advance
    let key ← parseExpr self
    let _ ← expect .rBracket "`]`"
    let _ ← expect .assign "`=`"
    let value ← parseExpr self
    pure (.explicitKey key value span)
  else
    match (← peek).token, (← peek2).map SpannedToken.token with
    | .ident name, some .assign => do
      let nameSpan := (← advance).span
      let _ ← advance
      let value ← parseExpr self
      pure (.namedKey name nameSpan value span)
    | _, _ => do
      let value ← parseExpr self
      pure (.positional value span)

def parseFieldTurn (fields : List TableField) :
    Parse (List TableField ⊕ List TableField) := do
  if ← check .rBrace then return .inr fields
  else
    let field ← parseTableField self
    if ← check .comma then
      let _ ← advance
      return .inl (fields ++ [field])
    else if ← check .semicolon then
      let _ ← advance
      return .inl (fields ++ [field])
    else return .inr (fields ++ [field])

def parseTableConstructor : Parse Expr := do
  let span ← currentSpan
  let _ ← expect .lBrace "`\x7b`"
  let fields ← loop (parseFieldTurn self) []
  let _ ← expect .rBrace "`\x7d`"
  pure (.tableConstructor fields span)

def parseArgList : Parse (List Expr) := do
  if ← check .rParen then pure []
  else
    let first ← parseExpr self
    commaSeparated (parseExpr self) [first]

def parseCallArgs : Parse (List Expr) := do
  match (← peek).token with
  | .lParen => do
    let _ ← advance
    let args ← parseArgList self
    let _ ← expect .rParen "`)`"
    pure args
  | .stringLit b => do
    let span := (← advance).span
    pure [.stringLit b span]
  | .lBrace => do
    let table ← parseTableConstructor self
    pure [table]
  | _ => unexpected "function arguments"

/-- After the identifier `tool`: only `tool.call` may follow. -/
def parseToolOrError (toolSpan : Span) : Parse Expr := do
  if ← check .dot then
    let _ ← advance
    match (← peek).token with
    | .ident name =>
      if name = ascii "call" then
        let callSpan := (← advance).span
        let func : Expr := .field (.name (ascii "tool") toolSpan) (ascii "call") callSpan
        if ← check .lParen then
          let args ← parseCallArgs self
          pure (.call func args toolSpan)
        else pure func
      else raise (.toolAsValue toolSpan)
    | _ => raise (.toolAsValue toolSpan)
  else raise (.toolAsValue toolSpan)

def parsePrimaryAtom : Parse Expr := do
  let t ← peek
  let span := t.span
  match t.token with
  | .kwNil => do
    let _ ← advance
    pure (.nil span)
  | .kwTrue => do
    let _ ← advance
    pure (.true span)
  | .kwFalse => do
    let _ ← advance
    pure (.false span)
  | .integer n => do
    let _ ← advance
    pure (.integer n span)
  | .stringLit b => do
    let _ ← advance
    pure (.stringLit b span)
  | .dotDotDot => do
    let _ ← advance
    raise (.variadicNotAllowed span)
  | .ident name => do
    let _ ← advance
    if name = ascii "tool" then parseToolOrError self span
    else if isDisallowed name then raise (.disallowedIdent span name)
    else pure (.name name span)
  | .lParen => do
    let _ ← advance
    let expr ← parseExpr self
    let _ ← expect .rParen "`)`"
    pure expr
  | .kwFunction => do
    let _ ← advance
    let body ← parseFuncBody self
    pure (.funcDef body span)
  | .lBrace => parseTableConstructor self
  | _ => raise (.expectedExpr span)

def parseSuffixTurn (expr : Expr) : Parse (Expr ⊕ Expr) := do
  match (← peek).token with
  | .dot => do
    let dotSpan := (← advance).span
    let field ← expectIdent
    pure (.inl (.field expr field.1 dotSpan))
  | .lBracket => do
    let span := (← advance).span
    let key ← parseExpr self
    let _ ← expect .rBracket "`]`"
    pure (.inl (.index expr key span))
  | .colon => do
    let span := (← advance).span
    let method ← expectIdent
    let args ← parseCallArgs self
    pure (.inl (.methodCall expr method.1 method.2 args span))
  | .lParen | .stringLit _ | .lBrace => do
    let args ← parseCallArgs self
    pure (.inl (.call expr args expr.span))
  | _ => pure (.inr expr)

def parseSuffixedExpr : Parse Expr := do
  let expr ← parsePrimaryAtom self
  loop (parseSuffixTurn self) expr

def parseUnop : Parse Expr := do
  let t ← peek
  match unOpOf t.token with
  | some op => do
    let _ ← advance
    let operand ← self.unop
    pure (.unOp op operand t.span)
  | none => parseSuffixedExpr self

def parseBinopTurn (minPrec : Nat) (left : Expr) : Parse (Expr ⊕ Expr) := do
  match ← peekBinop with
  | none => pure (.inr left)
  | some (op, prec, rightAssoc) =>
    if prec < minPrec then pure (.inr left)
    else
      let span := (← advance).span
      let right ← self.binop (if rightAssoc then prec else prec + 1)
      pure (.inl (.binOp op left right span))

def parseBinop (minPrec : Nat) : Parse Expr := do
  let left ← parseUnop self
  loop (parseBinopTurn self minPrec) left

end Expressions

section Statements

variable (self : Productions)

def parseReturn : Parse ReturnStmt := do
  let span ← currentSpan
  let _ ← advance
  if ← atBlockEnd then pure (.mk none span)
  else if ← check .semicolon then pure (.mk none span)
  else
    let value ← parseExpr self
    pure (.mk (some value) span)

def parseLocal : Parse Stmt := do
  let span := (← advance).span
  if ← check .kwFunction then
    let _ ← advance
    let name ← expectIdent
    let func ← parseFuncBody self
    pure (.localFunctionDecl name.1 name.2 func span)
  else
    let first ← expectIdent
    let names ← commaSeparated expectIdent [first]
    if ← check .assign then
      let _ ← advance
      let value ← parseExpr self
      let values ← commaSeparated (parseExpr self) [value]
      pure (.localDecl names values span)
    else pure (.localDecl names [] span)

def parseElseTurn (clauses : List ElseifClause) :
    Parse (List ElseifClause ⊕ List ElseifClause × Option Block) := do
  if ← check .kwElseif then
    let clauseSpan := (← advance).span
    let cond ← parseExpr self
    let _ ← expect .kwThen "`then`"
    let block ← self.block
    return .inl (clauses ++ [.mk cond block clauseSpan])
  else if ← check .kwElse then
    let _ ← advance
    let block ← self.block
    return .inr (clauses, some block)
  else return .inr (clauses, none)

def parseIf : Parse Stmt := do
  let span := (← advance).span
  let condition ← parseExpr self
  let _ ← expect .kwThen "`then`"
  let thenBlock ← self.block
  let (clauses, elseBlock) ← loop (parseElseTurn self) []
  let _ ← expect .kwEnd "`end`"
  pure (.ifStmt condition thenBlock clauses elseBlock span)

def parseWhile : Parse Stmt := do
  let span := (← advance).span
  let condition ← parseExpr self
  let _ ← expect .kwDo "`do`"
  let block ← self.block
  let _ ← expect .kwEnd "`end`"
  pure (.whileStmt condition block span)

def parseStep : Parse (Option Expr) := do
  if ← check .comma then
    let _ ← advance
    let step ← parseExpr self
    pure (some step)
  else pure none

def parseFor : Parse Stmt := do
  let span := (← advance).span
  let first ← expectIdent
  if ← check .assign then
    let _ ← advance
    let start ← parseExpr self
    let _ ← expect .comma "`,`"
    let limit ← parseExpr self
    let step ← parseStep self
    let _ ← expect .kwDo "`do`"
    let block ← self.block
    let _ ← expect .kwEnd "`end`"
    pure (.numericFor first.1 first.2 start limit step block span)
  else
    let vars ← commaSeparated expectIdent [first]
    let _ ← expect .kwIn "`in`"
    let iterator ← parseExpr self
    let iterators ← commaSeparated (parseExpr self) [iterator]
    let _ ← expect .kwDo "`do`"
    let block ← self.block
    let _ ← expect .kwEnd "`end`"
    pure (.genericFor vars iterators block span)

def parseNameTurn (parts : List (Bytes × Span)) :
    Parse (List (Bytes × Span) ⊕ List (Bytes × Span) × Option (Bytes × Span)) := do
  if ← check .dot then
    let _ ← advance
    let part ← expectIdent
    return .inl (parts ++ [part])
  else if ← check .colon then
    let _ ← advance
    let method ← expectIdent
    return .inr (parts, some method)
  else return .inr (parts, none)

def parseFunctionDecl : Parse Stmt := do
  let span := (← advance).span
  let first ← expectIdent
  let (parts, method) ← loop parseNameTurn [first]
  let func ← parseFuncBody self
  pure (.functionDecl parts method func span)

def parseDo : Parse Stmt := do
  let span := (← advance).span
  let block ← self.block
  let _ ← expect .kwEnd "`end`"
  pure (.doBlock block span)

def exprToAssignTarget (expr : Expr) (span : Span) : Except ParseError AssignTarget :=
  match expr with
  | .name name s => .ok (.name name s)
  | .field obj field s => .ok (.index obj (.stringLit field s) s)
  | .index obj key s => .ok (.index obj key s)
  | _ => .error (.unexpectedToken span "assignable target (variable or table field)"
      (ascii "expression"))

def parseExprOrAssign : Parse Stmt := do
  let expr ← parseSuffixedExpr self
  if ← check .comma then raise (.multiAssignNotSupported (← currentSpan))
  else if ← check .assign then
    let span := (← advance).span
    let value ← parseExpr self
    match exprToAssignTarget expr span with
    | .ok target => pure (.assign target value span)
    | .error e => raise e
  else
    match expr with
    | .call .. | .methodCall .. => pure (.exprStmt expr expr.span)
    | _ => raise (.unexpectedToken expr.span "function call or assignment" (ascii "expression"))

def parseStat : Parse Stmt := do
  match (← peek).token with
  | .kwLocal => parseLocal self
  | .kwIf => parseIf self
  | .kwWhile => parseWhile self
  | .kwFor => parseFor self
  | .kwFunction => parseFunctionDecl self
  | .kwDo => parseDo self
  | .kwBreak => do
    let span := (← advance).span
    pure (.breakStmt span)
  | _ => parseExprOrAssign self

def skipSemicolons : Parse Unit :=
  loop (fun _ => do
    if ← check .semicolon then
      let _ ← advance
      return .inl ()
    else return .inr ()) ()

def parseBlockTurn (stmts : List Stmt) :
    Parse (List Stmt ⊕ List Stmt × Option ReturnStmt) := do
  skipSemicolons
  if ← check .kwReturn then
    let ret ← parseReturn self
    if ← check .semicolon then
      let _ ← advance
      return .inr (stmts, some ret)
    else return .inr (stmts, some ret)
  else if ← atBlockEnd then return .inr (stmts, none)
  else
    let stmt ← parseStat self
    return .inl (stmts ++ [stmt])

def parseBlock : Parse Block := do
  let span ← currentSpan
  let (stmts, ret) ← loop (parseBlockTurn self) []
  pure (.mk stmts ret span)

end Statements

/-- The productions with so many levels of recursive calls. -/
def productions : Nat → Productions
  | 0 => ⟨Exec.throw .outOfFuel, fun _ => Exec.throw .outOfFuel, Exec.throw .outOfFuel⟩
  | depth + 1 =>
    let self := productions depth
    ⟨parseBlock self, parseBinop self, parseUnop self⟩

/-- A recursive call comes after a token only, so there are no more levels than tokens. -/
def parseTokens (tokens : List SpannedToken) : Except (Failure ParseError) Block :=
  ((do
    let block ← (productions tokens.length).block
    expectEof
    pure block : Parse Block).run ⟨tokens, 0⟩).1

def parse (source : Bytes) : Except (Failure ParseError) Block := do
  parseTokens (← Lexer.tokenize source)

end Parser

end Proveno
