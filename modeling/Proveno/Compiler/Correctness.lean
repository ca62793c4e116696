import Proveno.Compiler.ForLoops

/-! The code generator carries out the symbolic code of every syntax tree, by induction over
the tree. -/

namespace Proveno

open List (Forall₂)
open Compiler

mutual

theorem Expr.emits : (e : Expr) → EmitsParts e.compiled e.gen
  | .nil _ => .single (emits_plain _ [.pushNil])
  | .true _ => .single (emits_plain _ [.pushTrue])
  | .false _ => .single (emits_plain _ [.pushFalse])
  | .integer n _ => .single (emits_compileConstant _ (.integer n))
  | .stringLit bytes _ => .single (emits_compileConstant _ (.string bytes))
  | .vararg _ => .single .fail
  | .name _ _ => .single emits_compileName
  | .tableConstructor fields _ =>
    .single ((emits_plain _ [.newTable]).seq (fields_emits fields 1))
  | .index table key _ => .single (emits_compileIndex table.emits.whole key.emits.whole)
  | .field table _ _ => .single (emits_compileField table.emits.whole)
  | .methodCall object _ _ args _ =>
    .single (emits_compileMethodCall object.emits.whole (forall₂_whole (exprs_emits args)))
  | .call func args _ =>
    have hargs := forall₂_whole (exprs_emits args)
    have hcall := emits_compileCall func func.emits.whole hargs
    ⟨hcall, .cons hcall .nil, hargs⟩
  | .binOp op left right _ => by
    have hleft := left.emits
    have hright := right.emits
    cases op with
    | and => exact .single (emits_compileShortCircuit hleft.whole hright.whole .and)
    | or => exact .single (emits_compileShortCircuit hleft.whole hright.whole .or)
    | concat =>
      have hparts := List.rel_append hleft.parts hright.parts
      exact ⟨emits_compileConcatExpr hparts, hparts, .nil⟩
    | _ => exact .single (emits_compileStrict hleft.whole hright.whole)
  | .unOp _ operand _ => .single (emits_compileUnOp operand.emits.whole)
  | .funcDef body _ => .single (emits_closure _ (body.emits []))

theorem exprs_emits : (es : List Expr) → Forall₂ EmitsParts (compileExprs es) (genExprs es)
  | [] => .nil
  | e :: rest => .cons e.emits (exprs_emits rest)

theorem fields_emits : (fields : List TableField) → (autoIdx : Int64) →
    Emits (compileFields fields autoIdx) (genFields fields autoIdx)
  | [], _ => .pure
  | .namedKey _ _ value _ :: rest, autoIdx =>
    (emits_compileNamedKey value.emits.whole).seq (fields_emits rest autoIdx)
  | .explicitKey key value _ :: rest, autoIdx =>
    (emits_compileExplicitKey key.emits.whole value.emits.whole).seq (fields_emits rest autoIdx)
  | .positional value _ :: rest, autoIdx =>
    (emits_compilePositional value.emits.whole).seq (fields_emits rest (autoIdx + 1))

theorem FuncBody.emits : (body : FuncBody) → (extraParams : List Bytes) →
    EmitsClosure (body.compile extraParams) (body.gen extraParams)
  | .mk _ block _, _ => emitsClosure_compileFunctionBody block.emits

theorem Block.emits : (block : Block) → Emits block.compile block.gen
  | .mk stmts ret _ => emits_compileBlockWith (stmts_emits stmts) (ret_emits ret)

theorem stmts_emits : (stmts : List Stmt) → Emits (compileStmts stmts) (genStmts stmts)
  | [] => .pure
  | stmt :: rest => stmt.emits.seq (stmts_emits rest)

theorem ret_emits : (ret : Option ReturnStmt) → Emits (compileRet ret) (genRet ret)
  | none => .pure
  | some (.mk none _) => emits_compileReturn .none
  | some (.mk (some value) _) => emits_compileReturn (.some value.emits.whole)

theorem clauses_emits : (clauses : List ElseifClause) →
    Forall₂ (fun m g => Emits m.1 g.1 ∧ Emits m.2.1 g.2) (compileClauses clauses)
      (genClauses clauses)
  | [] => .nil
  | .mk condition block _ :: rest =>
    .cons ⟨condition.emits.whole, block.emits⟩ (clauses_emits rest)

theorem Stmt.emits : (stmt : Stmt) → Emits stmt.compile stmt.gen
  | .localDecl _ values _ => emits_compileLocalDecl (exprs_emits values)
  | .assign (.name _ _) value _ => emits_compileAssignName value.emits.whole
  | .assign (.index table key _) value _ =>
    emits_compileAssignIndex table.emits.whole key.emits.whole value.emits.whole
  | .ifStmt condition thenBlock clauses none _ =>
    emits_compileIf condition.emits.whole thenBlock.emits (clauses_emits clauses) .none
  | .ifStmt condition thenBlock clauses (some elseBlock) _ =>
    emits_compileIf condition.emits.whole thenBlock.emits (clauses_emits clauses)
      (.some elseBlock.emits)
  | .whileStmt condition block _ => emits_compileWhile condition.emits.whole block.emits
  | .numericFor _ _ start limit none block _ =>
    emits_compileNumericFor start.emits.whole limit.emits.whole .none block.emits
  | .numericFor _ _ start limit (some step) block _ =>
    emits_compileNumericFor start.emits.whole limit.emits.whole (.some step.emits.whole)
      block.emits
  | .genericFor _ iterators block _ => emits_compileGenericFor (exprs_emits iterators) block.emits
  | .functionDecl _ _ func _ => emits_compileFunctionDecl func.emits
  | .localFunctionDecl _ _ func _ => emits_compileLocalFunctionDecl (func.emits [])
  | .exprStmt expr _ => emits_compileExprStmt expr.emits.whole
  | .breakStmt _ => emits_compileBreak
  | .doBlock block _ => block.emits

end

namespace Compiler

theorem valid_start (overflowChecks : Bool) : (start overflowChecks).Valid where
  wired := ⟨trivial, by simp [start, FunctionScope.new]⟩
  nodup := List.forall_mem_cons.mpr ⟨List.nodup_nil, List.forall_mem_nil _⟩
  pools := List.forall_mem_cons.mpr ⟨Nat.zero_le _, List.forall_mem_nil _⟩
  chunk := by simp [start]

end Compiler

end Proveno
