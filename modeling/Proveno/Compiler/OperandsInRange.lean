import Proveno.Compiler.Correctness
import Proveno.Compiler.OperandsKept

/-! In the prototypes of a compiled program every operand is in range, and no two variables or
temporaries that are in use at once have the same slot. -/

namespace Proveno

open Compiler

/-- How many parameters a function has, or how many parts a chain of concatenations. -/
inductive Quantity
  | params (n : Nat)
  | chain (n : Nat)
  deriving DecidableEq

def Quantity.Fits : Quantity → Prop
  | params n => n ≤ 200
  | chain n => n ≤ 255

instance : DecidablePred Quantity.Fits
  | .params n => inferInstanceAs (Decidable (n ≤ 200))
  | .chain n => inferInstanceAs (Decidable (n ≤ 255))

def Expr.chainLength : Expr → Nat
  | binOp .concat left right _ => left.chainLength + right.chainLength
  | _ => 1

mutual

/-- The quantities of what is in an expression, and so on for every kind of syntax tree. -/
def Expr.quantities : Expr → List Quantity
  | .nil _ | .true _ | .false _ | .integer _ _ | .stringLit _ _ | .vararg _ | .name _ _ => []
  | .tableConstructor fields _ => quantitiesOfFields fields
  | .index table key _ => table.quantities ++ key.quantities
  | .field table _ _ => table.quantities
  | .methodCall object _ _ args _ => object.quantities ++ quantitiesOf args
  | .call func args _ => func.quantities ++ quantitiesOf args
  | .binOp .concat left right _ =>
    .chain (left.chainLength + right.chainLength) :: left.quantities ++ right.quantities
  | .binOp _ left right _ => left.quantities ++ right.quantities
  | .unOp _ operand _ => operand.quantities
  | .funcDef body _ => body.quantities

def quantitiesOf : List Expr → List Quantity
  | [] => []
  | e :: rest => e.quantities ++ quantitiesOf rest

def quantitiesOfFields : List TableField → List Quantity
  | [] => []
  | .namedKey _ _ value _ :: rest => value.quantities ++ quantitiesOfFields rest
  | .explicitKey key value _ :: rest =>
    key.quantities ++ value.quantities ++ quantitiesOfFields rest
  | .positional value _ :: rest => value.quantities ++ quantitiesOfFields rest

def FuncBody.quantities : FuncBody → List Quantity
  | .mk params block _ => .params params.length :: block.quantities

def Block.quantities : Block → List Quantity
  | .mk stmts ret _ => quantitiesOfStmts stmts ++ quantitiesOfRet ret

def quantitiesOfStmts : List Stmt → List Quantity
  | [] => []
  | stmt :: rest => stmt.quantities ++ quantitiesOfStmts rest

def quantitiesOfRet : Option ReturnStmt → List Quantity
  | none | some (.mk none _) => []
  | some (.mk (some value) _) => value.quantities

def quantitiesOfClauses : List ElseifClause → List Quantity
  | [] => []
  | .mk condition block _ :: rest =>
    condition.quantities ++ block.quantities ++ quantitiesOfClauses rest

def Stmt.quantities : Stmt → List Quantity
  | .localDecl _ values _ => quantitiesOf values
  | .assign (.name _ _) value _ => value.quantities
  | .assign (.index table key _) value _ =>
    table.quantities ++ key.quantities ++ value.quantities
  | .ifStmt condition thenBlock clauses none _ =>
    condition.quantities ++ thenBlock.quantities ++ quantitiesOfClauses clauses
  | .ifStmt condition thenBlock clauses (some elseBlock) _ =>
    condition.quantities ++ thenBlock.quantities ++ quantitiesOfClauses clauses ++
      elseBlock.quantities
  | .whileStmt condition block _ => condition.quantities ++ block.quantities
  | .numericFor _ _ start limit none block _ =>
    start.quantities ++ limit.quantities ++ block.quantities
  | .numericFor _ _ start limit (some step) block _ =>
    start.quantities ++ limit.quantities ++ step.quantities ++ block.quantities
  | .genericFor _ iterators block _ => quantitiesOf iterators ++ block.quantities
  | .functionDecl _ _ func _ | .localFunctionDecl _ _ func _ => func.quantities
  | .exprStmt expr _ => expr.quantities
  | .breakStmt _ => []
  | .doBlock block _ => block.quantities

end

/-- All of them fit. -/
def Small (qs : List Quantity) : Prop := ∀ q ∈ qs, q.Fits

instance (qs : List Quantity) : Decidable (Small qs) :=
  inferInstanceAs (Decidable (∀ q ∈ qs, q.Fits))

theorem small_append {qs rest : List Quantity} :
    Small (qs ++ rest) ↔ Small qs ∧ Small rest := List.forall_mem_append

theorem Expr.chainLength_pos : (e : Expr) → 0 < e.chainLength
  | .binOp .concat left right _ => Nat.add_pos_left left.chainLength_pos _
  | e => by
    unfold chainLength
    split
    · exact Nat.add_pos_left (chainLength_pos _) _
    · exact Nat.one_pos

theorem Expr.length_parts : (e : Expr) → e.compiled.parts.length = e.chainLength
  | .binOp op left right _ => by
    cases op with
    | concat =>
      change (left.compiled.parts ++ right.compiled.parts).length = _
      rw [List.length_append, left.length_parts, right.length_parts]
      rfl
    | _ => rfl
  | .nil _ | .true _ | .false _ | .integer _ _ | .stringLit _ _ | .vararg _ | .name _ _
  | .tableConstructor _ _ | .index _ _ _ | .field _ _ _ | .methodCall _ _ _ _ _ | .call _ _ _
  | .unOp _ _ _ | .funcDef _ _ => rfl

mutual

theorem Expr.keeps : (e : Expr) → Small e.quantities → KeepsParts e.compiled
  | .nil _, _ => .single (keeps_plain rfl)
  | .true _, _ => .single (keeps_plain rfl)
  | .false _, _ => .single (keeps_plain rfl)
  | .integer _ _, _ => .single (keeps_compileConstant _)
  | .stringLit _ _, _ => .single (keeps_compileConstant _)
  | .vararg _, _ => .single (.fail _)
  | .name _ _, _ => .single keeps_compileName
  | .tableConstructor fields _, h =>
    .single ((keeps_plain rfl).seq
      (fields_keep fields 1 h))
  | .index table key _, h =>
    have ⟨htable, hkey⟩ := small_append.mp h
    .single (keeps_compileIndex (table.keeps htable).whole (key.keeps hkey).whole)
  | .field table _ _, h => .single (keeps_compileField (table.keeps h).whole)
  | .methodCall object _ _ args _, h =>
    have ⟨hobject, hargs⟩ := small_append.mp h
    .single (keeps_compileMethodCall (object.keeps hobject).whole
      (keepsParts_whole (exprs_keep args hargs)))
  | .call func args _, h =>
    have ⟨hfunc, hargs⟩ := small_append.mp h
    have hwhole := keepsParts_whole (exprs_keep args hargs)
    have hcall := keeps_compileCall func (func.keeps hfunc).whole hwhole
    ⟨hcall, List.forall_mem_singleton.mpr hcall, hwhole⟩
  | .binOp op left right _, h => by
    cases op with
    | and =>
      have ⟨hleft, hright⟩ := small_append.mp h
      exact .single (keeps_compileShortCircuit (free_jump .and) (left.keeps hleft).whole
        (right.keeps hright).whole)
    | or =>
      have ⟨hleft, hright⟩ := small_append.mp h
      exact .single (keeps_compileShortCircuit (free_jump .or) (left.keeps hleft).whole
        (right.keeps hright).whole)
    | concat =>
      have ⟨hchain, hsides⟩ := List.forall_mem_cons.mp h
      have ⟨hleft, hright⟩ := small_append.mp hsides
      have hparts := List.forall_mem_append.mpr
        ⟨(left.keeps hleft).parts, (right.keeps hright).parts⟩
      have hlength : (left.compiled.parts ++ right.compiled.parts).length =
          left.chainLength + right.chainLength := by
        rw [List.length_append, left.length_parts, right.length_parts]
      have htwo := Nat.add_le_add left.chainLength_pos right.chainLength_pos
      exact ⟨keeps_compileConcatExpr hparts (hlength ▸ htwo) (hlength ▸ hchain), hparts,
        List.forall_mem_nil _⟩
    | _ =>
      have ⟨hleft, hright⟩ := small_append.mp h
      exact .single (keeps_compileStrict (fun _ _ _ _ => trivial) (left.keeps hleft).whole
        (right.keeps hright).whole)
  | .unOp _ operand _, h => .single (keeps_compileUnOp (operand.keeps h).whole)
  | .funcDef body _, h => .single (keeps_compileFuncDef (body.keeps [] (Nat.zero_le _) h))

theorem exprs_keep : (es : List Expr) → Small (quantitiesOf es) →
    ∀ p ∈ compileExprs es, KeepsParts p
  | [], _ => List.forall_mem_nil _
  | e :: rest, h =>
    have ⟨he, hrest⟩ := small_append.mp h
    List.forall_mem_cons.mpr ⟨e.keeps he, exprs_keep rest hrest⟩

theorem fields_keep : (fields : List TableField) → (autoIdx : Int64) →
    Small (quantitiesOfFields fields) → KeepsRange (compileFields fields autoIdx)
  | [], _, _ => .pure ()
  | .namedKey _ _ value _ :: rest, autoIdx, h =>
    have ⟨hvalue, hrest⟩ := small_append.mp h
    (keeps_compileNamedKey (value.keeps hvalue).whole).seq (fields_keep rest autoIdx hrest)
  | .explicitKey key value _ :: rest, autoIdx, h =>
    have ⟨hentry, hrest⟩ := small_append.mp h
    have ⟨hkey, hvalue⟩ := small_append.mp hentry
    (keeps_compileExplicitKey (key.keeps hkey).whole (value.keeps hvalue).whole).seq
      (fields_keep rest autoIdx hrest)
  | .positional value _ :: rest, autoIdx, h =>
    have ⟨hvalue, hrest⟩ := small_append.mp h
    (keeps_compilePositional (value.keeps hvalue).whole).seq
      (fields_keep rest (autoIdx + 1) hrest)

theorem FuncBody.keeps : (body : FuncBody) → (extraParams : List Bytes) →
    extraParams.length ≤ 1 → Small body.quantities → KeepsClosure (body.compile extraParams)
  | .mk _ block _, _, hextra, h =>
    have ⟨hparams, hblock⟩ := List.forall_mem_cons.mp h
    keepsClosure_compileFunctionBody hextra hparams (block.keeps hblock)

theorem Block.keeps : (block : Block) → Small block.quantities → KeepsRange block.compile
  | .mk stmts ret _, h =>
    have ⟨hstmts, hret⟩ := small_append.mp h
    keeps_compileBlockWith (stmts_keep stmts hstmts) (ret_keeps ret hret)

theorem stmts_keep : (stmts : List Stmt) → Small (quantitiesOfStmts stmts) →
    KeepsRange (compileStmts stmts)
  | [], _ => .pure ()
  | stmt :: rest, h =>
    have ⟨hstmt, hrest⟩ := small_append.mp h
    (stmt.keeps hstmt).seq (stmts_keep rest hrest)

theorem ret_keeps : (ret : Option ReturnStmt) → Small (quantitiesOfRet ret) →
    KeepsRange (compileRet ret)
  | none, _ => .pure ()
  | some (.mk none _), _ => keeps_compileReturn keeps_none
  | some (.mk (some value) _), h => keeps_compileReturn (keeps_some (value.keeps h).whole)

theorem clauses_keep : (clauses : List ElseifClause) → Small (quantitiesOfClauses clauses) →
    ∀ clause ∈ compileClauses clauses, KeepsRange clause.1 ∧ KeepsRange clause.2.1
  | [], _ => List.forall_mem_nil _
  | .mk condition block _ :: rest, h =>
    have ⟨hclause, hrest⟩ := small_append.mp h
    have ⟨hcondition, hblock⟩ := small_append.mp hclause
    List.forall_mem_cons.mpr ⟨⟨(condition.keeps hcondition).whole, block.keeps hblock⟩,
      clauses_keep rest hrest⟩

theorem Stmt.keeps : (stmt : Stmt) → Small stmt.quantities → KeepsRange stmt.compile
  | .localDecl names values _, h => keeps_compileLocalDecl names values (exprs_keep values h)
  | .assign (.name _ _) value _, h => keeps_compileAssignName (value.keeps h).whole
  | .assign (.index table key _) value _, h =>
    have ⟨hplace, hvalue⟩ := small_append.mp h
    have ⟨htable, hkey⟩ := small_append.mp hplace
    keeps_compileAssignIndex key (table.keeps htable).whole (key.keeps hkey).whole
      (value.keeps hvalue).whole
  | .ifStmt condition thenBlock clauses none _, h =>
    have ⟨hfirst, hclauses⟩ := small_append.mp h
    have ⟨hcondition, hthen⟩ := small_append.mp hfirst
    keeps_compileIf (condition.keeps hcondition).whole (thenBlock.keeps hthen)
      (clauses_keep clauses hclauses) keeps_none
  | .ifStmt condition thenBlock clauses (some elseBlock) _, h =>
    have ⟨hifs, helse⟩ := small_append.mp h
    have ⟨hfirst, hclauses⟩ := small_append.mp hifs
    have ⟨hcondition, hthen⟩ := small_append.mp hfirst
    keeps_compileIf (condition.keeps hcondition).whole (thenBlock.keeps hthen)
      (clauses_keep clauses hclauses) (keeps_some (elseBlock.keeps helse))
  | .whileStmt condition block _, h =>
    have ⟨hcondition, hblock⟩ := small_append.mp h
    keeps_compileWhile (condition.keeps hcondition).whole (block.keeps hblock)
  | .numericFor _ _ start limit none block _, h =>
    have ⟨hbounds, hblock⟩ := small_append.mp h
    have ⟨hstart, hlimit⟩ := small_append.mp hbounds
    keeps_compileNumericFor (start.keeps hstart).whole (limit.keeps hlimit).whole keeps_none
      (block.keeps hblock)
  | .numericFor _ _ start limit (some step) block _, h =>
    have ⟨hrange, hblock⟩ := small_append.mp h
    have ⟨hbounds, hstep⟩ := small_append.mp hrange
    have ⟨hstart, hlimit⟩ := small_append.mp hbounds
    keeps_compileNumericFor (start.keeps hstart).whole (limit.keeps hlimit).whole
      (keeps_some (step.keeps hstep).whole) (block.keeps hblock)
  | .genericFor _ iterators block _, h =>
    have ⟨hiterators, hblock⟩ := small_append.mp h
    keeps_compileGenericFor iterators (exprs_keep iterators hiterators) (block.keeps hblock)
  | .functionDecl _ _ func _, h =>
    keeps_compileFunctionDecl fun extraParams hextra => func.keeps extraParams hextra h
  | .localFunctionDecl _ _ func _, h =>
    keeps_compileLocalFunctionDecl (func.keeps [] (Nat.zero_le _) h)
  | .exprStmt expr _, h => keeps_compileExprStmt expr (expr.keeps h).whole
  | .breakStmt _, _ => keeps_compileBreak
  | .doBlock block _, h => block.keeps h

end

namespace Compiler

theorem sound_start (overflowChecks : Bool) : (start overflowChecks).Sound 0 where
  valid := valid_start overflowChecks
  current := ⟨rfl, rfl, Nat.zero_le _, le_rfl, List.forall_mem_nil _⟩
  enclosing := List.forall_mem_nil _
  prototypes := List.forall_mem_singleton.mpr ⟨List.forall_mem_nil _, rfl⟩
  points := List.forall_mem_nil _

/-- What is in use wherever an instruction is emitted. -/
def pointsOf (overflowChecks : Bool) (block : Block) : List Point :=
  ((compileChunk block).run (start overflowChecks)).2.points

theorem covers_set (prototypes : List FunctionProto) {proto : FunctionProto}
    (h : proto.upvalues = []) : Covers prototypes (prototypes.set 0 proto) := by
  intro n inner hget
  cases n with
  | zero =>
    have hlt := (List.getElem?_eq_some_iff.mp hget).1
    exact ⟨proto, List.getElem?_set_self hlt, h ▸ List.nil_subset _⟩
  | succ n => exact ⟨inner, by rw [List.getElem?_set_ne (Nat.zero_ne_add_one n), hget],
      List.Subset.refl _⟩

/-- Where the functions have few enough parameters and upvalues, and the concatenations few
enough parts, every operand of a compiled program is in range, and wherever an instruction is
emitted the slots in use are different. -/
theorem compile_operandsInRange {overflowChecks : Bool} {block : Block}
    {program : CompiledProgram} (hsmall : Small block.quantities)
    (h : compile overflowChecks block = .ok program)
    (hup : ∀ proto ∈ program.prototypes, proto.upvalues.length ≤ 255) :
    (∀ proto ∈ program.prototypes, proto.OperandsInRange program.prototypes) ∧
      ∀ p ∈ pointsOf overflowChecks block, p.slots.Nodup := by
  unfold compile at h
  unfold pointsOf
  split at h
  · rename_i proto c hrun
    rw [hrun]
    cases h
    obtain ⟨_, c₁, hrun₁, hrun⟩ := Exec.run_bind_eq_ok.mp hrun
    obtain ⟨_, c₂, hrun₂, hexit⟩ := Exec.run_bind_eq_ok.mp hrun
    have hret : KeepsRange (emitAll block.span.line [.ret 0]) :=
      keeps_plain rfl
    obtain ⟨hsound, hwidened, -⟩ :=
      ((block.keeps hsmall).seq hret) _ c₂ () (sound_start overflowChecks) (List.forall_mem_nil _)
        (Exec.run_bind_eq_ok.mpr ⟨_, c₁, hrun₁, hrun₂⟩)
    have henclosing : c₂.enclosing = [] := List.forall₂_nil_left_iff.mp hwidened.enclosing
    have hexit' : exitFunction.run c₂ = (.ok c₂.current.finish, c₂) := by
      rw [exitFunction]
      dsimp only
      rw [henclosing]
    rw [hexit'] at hexit
    cases hexit
    have hnone : c.current.upvalues = [] := by
      refine List.eq_nil_iff_forall_not_mem.mpr fun u hu => ?_
      have hsource := hsound.valid.wired.2 u hu
      rw [henclosing] at hsource
      exact hsource
    have hcovers : Covers c.prototypes (c.prototypes.set 0 c.current.finish) :=
      covers_set c.prototypes (by simp [FunctionScope.finish, hnone])
    refine ⟨fun proto hproto => ?_, hsound.points⟩
    refine FunctionProto.Bounded.operandsInRange ?_ (hup proto hproto)
    rcases List.mem_or_eq_of_mem_set hproto with hmem | rfl
    · exact (hsound.prototypes proto hmem).mono hcovers
    · exact hsound.finish.mono hcovers
  · cases h

/-- `local s = nil local f = function(x) return s .. x end return s:m(f)` -/
def methodOfLocal : Block :=
  .mk
    [.localDecl [(ascii "s", default)] [.nil default] default,
      .localDecl [(ascii "f", default)]
        [.funcDef (.mk [(ascii "x", default)]
          (.mk [] (some (.mk (some (.binOp .concat (.name (ascii "s") default)
            (.name (ascii "x") default) default)) default)) default) default) default] default]
    (some (.mk (some (.methodCall (.name (ascii "s") default) (ascii "m") default
      [.name (ascii "f") default] default)) default)) default

theorem compile_operandsInRange_methodOfLocal :
    ∃ program, compile true methodOfLocal = .ok program ∧
      (∀ proto ∈ program.prototypes, proto.OperandsInRange program.prototypes) ∧
      ∀ p ∈ pointsOf true methodOfLocal, p.slots.Nodup := by
  have hfew : (compile true methodOfLocal).toOption.any fun program =>
      program.prototypes.all fun proto => proto.upvalues.length ≤ 255 := by decide
  have hsmall : Small methodOfLocal.quantities := by decide
  cases h : compile true methodOfLocal with
  | ok program =>
    rw [h] at hfew
    refine ⟨program, rfl, compile_operandsInRange hsmall h fun proto hproto => ?_⟩
    exact of_decide_eq_true (List.all_eq_true.mp hfew proto hproto)
  | error e =>
    rw [h] at hfew
    cases hfew

end Compiler

end Proveno
