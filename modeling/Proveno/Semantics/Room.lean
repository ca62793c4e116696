import Proveno.Compiler.Correctness
import Proveno.Compiler.Slots
import Proveno.Semantics.Statements

/-! Where a program compiles there is a slot for every variable that statements declare, below
the number of slots that the function reserves. -/

namespace Proveno

section Room

/-- How many variables the statement leaves declared. -/
def Stmt.declared : Stmt → Nat
  | .localDecl names _ _ => names.length
  | _ => 0

variable (top : Nat)

mutual

/-- So many slots are enough for the variables, if so many are taken before. -/
def Stmt.Room : Stmt → Nat → Prop
  | .localDecl names _ _, n => ∀ i < names.length, n + i < top
  | .ifStmt _ thenBlock clauses none _, n => thenBlock.Room n ∧ RoomClauses clauses n
  | .ifStmt _ thenBlock clauses (some elseBlock) _, n =>
    thenBlock.Room n ∧ RoomClauses clauses n ∧ elseBlock.Room n
  | .whileStmt _ block _, n => block.Room n
  | .numericFor _ _ _ _ _ block _, n => n + 4 ≤ top ∧ block.Room (n + 4)
  | .doBlock block _, n => block.Room n
  | _, _ => True

def RoomClauses : List ElseifClause → Nat → Prop
  | [], _ => True
  | .mk _ block _ :: rest, n => block.Room n ∧ RoomClauses rest n

def RoomStmts : List Stmt → Nat → Prop
  | [], _ => True
  | stmt :: rest, n => stmt.Room n ∧ RoomStmts rest (n + stmt.declared)

def Block.Room : Block → Nat → Prop
  | .mk stmts _ _, n => RoomStmts stmts n

end

end Room

namespace FunctionScope

/-- So many variables more are declared in the innermost block. -/
structure Opens (d : Nat) (s s' : FunctionScope) : Prop where
  next : s'.nextSlot.toNat = s.nextSlot.toNat + d
  blocks : ∃ more, more.length = d ∧ s'.blocks = (more ++ s.blocks.headD []) :: s.blocks.tail
  room : s.maxLocals.toNat ≤ s'.maxLocals.toNat

/-- What a function knows of its slots. -/
def held (s : FunctionScope) : List (List LocalVar) × UInt8 × UInt8 :=
  (s.blocks, s.nextSlot, s.maxLocals)

variable {s s' s'' : FunctionScope} {d d' : Nat}

theorem Opens.of_held (hblocks : s.blocks ≠ []) (h : s'.held = s.held) : s.Opens 0 s' := by
  obtain ⟨hblocks', hnext, hmax⟩ : s'.blocks = s.blocks ∧ s'.nextSlot = s.nextSlot ∧
    s'.maxLocals = s.maxLocals := by simpa [held] using h
  obtain ⟨block, rest, hcons⟩ := List.exists_cons_of_ne_nil hblocks
  exact ⟨by rw [hnext]; rfl, ⟨[], rfl, by rw [hblocks', hcons]; rfl⟩, by rw [hmax]⟩

theorem Opens.trans (h : s.Opens d s') (h' : s'.Opens d' s'') : s.Opens (d + d') s'' := by
  obtain ⟨more, rfl, hblocks⟩ := h.blocks
  obtain ⟨more', rfl, hblocks'⟩ := h'.blocks
  refine ⟨by rw [h'.next, h.next, Nat.add_assoc], ⟨more' ++ more, ?_, ?_⟩, h.room.trans h'.room⟩
  · rw [List.length_append, Nat.add_comm]
  · rw [hblocks', hblocks, List.append_assoc]
    rfl

end FunctionScope

namespace Compiler

/-- The computation leaves the slots as they are. -/
def Still {α : Type} (m : Codegen α) : Prop :=
  ∀ c c' a, m.run c = (.ok a, c') → c'.current.held = c.current.held

/-- The computation declares so many variables; and if the slots of the function are so many
in the end, there has been room. -/
def Takes {α : Type} (top d : Nat) (room : Nat → Prop) (m : Codegen α) : Prop :=
  ∀ c c' a, c.current.blocks ≠ [] → m.run c = (.ok a, c') → c.current.Opens d c'.current ∧
    (c'.current.maxLocals.toNat ≤ top → room c.current.nextSlot.toNat)

namespace Still

variable {α β : Type} {m : Codegen α} {f : α → Codegen β} {ms : List (Codegen Unit)}

theorem pure (a : α) : Still (Pure.pure a) := by
  intro c c' _ hrun
  cases hrun
  rfl

theorem throw (e : Failure CompileError) : Still (Exec.throw e : Codegen α) := by
  intro c c' _ hrun
  cases hrun

theorem fail (e : CompileError) : Still (Compiler.fail e : Codegen α) := throw _

theorem bind (hm : Still m) (hf : ∀ a, Still (f a)) : Still (m >>= f) := by
  intro c c' b hrun
  obtain ⟨a, mid, hrun₁, hrun₂⟩ := Exec.run_bind_eq_ok.mp hrun
  rw [hf a mid c' b hrun₂, hm c mid a hrun₁]

theorem currentScope : Still currentScope := by
  intro c c' _ hrun
  cases hrun
  rfl

theorem emit (instr : Instruction) (line : UInt32) : Still (Compiler.emit instr line) := by
  intro c c' _ hrun
  cases hrun
  rfl

theorem codeLength : Still Compiler.codeLength := by
  intro c c' _ hrun
  cases hrun
  rfl

theorem emitAll (line : UInt32) (instrs : List Instruction) :
    Still (Compiler.emitAll line instrs) := by
  induction instrs with
  | nil => exact pure ()
  | cons instr rest ih => exact (emit instr line).bind fun _ => ih

theorem resolveVar (name : Bytes) : Still (Compiler.resolveVar name) := by
  intro c c' _ hrun
  cases hrun
  unfold Compiler.resolve
  cases c.current.findLocal name with
  | some v => rfl
  | none =>
    cases c.current.findUpvalue name with
    | some i => rfl
    | none =>
      cases findUpvalueInEnclosing name c.enclosing with
      | none => rfl
      | some found => rfl

theorem addConstant (k : Constant) (line : UInt32) : Still (Compiler.addConstant k line) := by
  intro c c' _ hrun
  rw [Compiler.addConstant, Exec.run_bind, Compiler.currentScope] at hrun
  dsimp only at hrun
  split at hrun
  · cases hrun
    rfl
  · split_ifs at hrun
    · cases hrun
    · cases hrun
      rfl

theorem patchJumpTo (idx target : Nat) : Still (Compiler.patchJumpTo idx target) := by
  intro c c' _ hrun
  rw [Compiler.patchJumpTo, Exec.run_bind, Compiler.currentScope] at hrun
  obtain ⟨instr, mid, hinstr, hset⟩ := Exec.run_bind_eq_ok.mp hrun
  cases hcode : c.current.proto.code[idx]?.bind
      (Instruction.withOffset (.ofInt ((target : Int) - idx - 1))) with
  | none =>
    rw [hcode] at hinstr
    cases hinstr
  | some instr' =>
    rw [hcode] at hinstr
    cases hinstr
    cases hset
    rfl

theorem patchJump (idx : Nat) : Still (Compiler.patchJump idx) :=
  codeLength.bind fun _ => patchJumpTo _ _

theorem patchJumps (idxs : List Nat) : Still (Compiler.patchJumps idxs) := by
  induction idxs with
  | nil => exact pure ()
  | cons idx rest ih => exact (patchJump idx).bind fun _ => ih

theorem pushBreakScope (pops : Nat) : Still (Compiler.pushBreakScope pops) := by
  intro c c' _ hrun
  cases hrun
  rfl

theorem popBreakScope : Still Compiler.popBreakScope := by
  intro c c' _ hrun
  unfold Compiler.popBreakScope at hrun
  dsimp only at hrun
  split at hrun
  all_goals
    cases hrun
    rfl

theorem emitBackJump (start : Nat) (line : UInt32) : Still (Compiler.emitBackJump start line) :=
  codeLength.bind fun _ => (emit _ _).bind fun _ => pure ()

theorem inOrder (h : ∀ m ∈ ms, Still m) : Still (Compiler.inOrder ms) := by
  induction ms with
  | nil => exact pure ()
  | cons m rest ih =>
    rw [List.forall_mem_cons] at h
    exact h.1.bind fun _ => ih h.2

theorem compileConstant (k : Constant) (line : UInt32) : Still (Compiler.compileConstant k line) :=
  (addConstant k line).bind fun _ => emitAll _ _

theorem compileName (name : Bytes) (line : UInt32) : Still (Compiler.compileName name line) := by
  unfold Compiler.compileName
  by_cases htool : name = ascii "tool"
  · rw [if_pos htool]
    exact fail _
  by_cases hiter : (iterKindOf name).isSome
  · rw [if_neg htool, if_pos hiter]
    exact fail _
  rw [if_neg htool, if_neg hiter]
  refine (resolveVar name).bind fun var => ?_
  cases var with
  | «local» slot => exact emitAll _ _
  | upvalue idx => exact emitAll _ _
  | global =>
    dsimp only
    split_ifs
    · exact (addConstant _ _).bind fun _ => emitAll _ _
    · exact fail _

theorem compileBreak (line : UInt32) : Still (Compiler.compileBreak line) := by
  refine currentScope.bind fun scope => ?_
  cases scope.breakPatches with
  | nil => exact fail _
  | cons inner rest =>
    refine (emitAll _ _).bind fun _ => (emit _ _).bind fun idx => ?_
    intro c c' _ hrun
    rw [Exec.run_bind, Compiler.currentScope] at hrun
    dsimp only at hrun
    split at hrun
    · cases hrun
    · cases hrun
      rfl

end Still

namespace Takes

variable {α β : Type} {top d d' : Nat} {room room' : Nat → Prop} {m k : Codegen α}
  {f : α → Codegen β}

theorem of_still (h : Still m) : Takes top 0 (fun _ => True) m :=
  fun c c' a hblocks hrun => ⟨.of_held hblocks (h c c' a hrun), fun _ => trivial⟩

theorem bind (hm : Takes top d room m) (hf : ∀ a, Takes top d' room' (f a)) :
    Takes top (d + d') (fun n => room n ∧ room' (n + d)) (m >>= f) := by
  intro c c' b hblocks hrun
  obtain ⟨a, mid, hrun₁, hrun₂⟩ := Exec.run_bind_eq_ok.mp hrun
  obtain ⟨hopens, hroom⟩ := hm c mid a hblocks hrun₁
  have hblocks' : mid.current.blocks ≠ [] := by
    obtain ⟨more, -, hmid⟩ := hopens.blocks
    rw [hmid]
    exact List.cons_ne_nil _ _
  obtain ⟨hopens', hroom'⟩ := hf a mid c' b hblocks' hrun₂
  exact ⟨hopens.trans hopens', fun htop =>
    ⟨hroom (hopens'.room.trans htop), hopens.next ▸ hroom' htop⟩⟩

theorem mono (hm : Takes top d room m) (hroom : ∀ n, room n → room' n) : Takes top d room' m :=
  fun c c' a hblocks hrun => (hm c c' a hblocks hrun).imp_right fun h htop => hroom _ (h htop)

theorem seq (hm : Takes top 0 room m) (hf : ∀ a, Takes top 0 room' (f a)) :
    Takes top 0 (fun n => room n ∧ room' n) (m >>= f) := hm.bind hf

/-- Before the computation the slots are left as they are. -/
theorem after {n : Codegen β} {k : β → Codegen α} (hn : Still n)
    (hk : ∀ b, Takes top d room (k b)) : Takes top d room (n >>= k) := by
  have h : Takes top (0 + d) _ (n >>= k) := (of_still hn).bind hk
  rw [Nat.zero_add] at h
  exact h.mono fun n h => h.2

/-- After the computation the slots are left as they are. -/
theorem before (hm : Takes top d room m) (hf : ∀ a, Still (f a)) :
    Takes top d room (m >>= f) :=
  (hm.bind fun a => of_still (hf a)).mono fun _ h => h.1

theorem fail (e : CompileError) : Takes top d room (Compiler.fail e : Codegen α) := by
  intro c c' _ _ hrun
  cases hrun

end Takes

section Statements

variable {top d : Nat} {room : Nat → Prop} {m k : Codegen Unit} {ms : List (Codegen Unit)}
  {line : UInt32}

theorem takes_declareLocal (name : Bytes) (line : UInt32) (hidden : Bool) :
    Takes top 1 (· < top) (declareLocal name line hidden) := by
  intro c c' a hblocks hrun
  rw [declareLocal, Exec.run_bind, currentScope] at hrun
  dsimp only at hrun
  split_ifs at hrun with hfull
  · cases hrun
  obtain ⟨next, mid, hadd, hrun⟩ := Exec.run_bind_eq_ok.mp hrun
  obtain ⟨rfl, rfl⟩ := run_addU8_eq_ok hadd
  obtain ⟨s, mid', hpush, hset⟩ := Exec.run_bind_eq_ok.mp hrun
  obtain ⟨block, rest, hcons⟩ := List.exists_cons_of_ne_nil hblocks
  have hnext : (mid.current.nextSlot + 1).toNat = mid.current.nextSlot.toNat + 1 := by
    rw [UInt8.toNat_add, Nat.mod_eq_of_lt]
    · rfl
    · rw [ge_iff_le, UInt8.le_iff_toNat_le] at hfull
      have h200 : (200 : UInt8).toNat = 200 := rfl
      have h1 : (1 : UInt8).toNat = 1 := rfl
      omega
  have hmax := toNat_le_max mid.current.maxLocals (mid.current.nextSlot + 1)
  unfold FunctionScope.pushLocal FunctionScope.reserve at hpush
  dsimp only at hpush
  rw [hcons] at hpush
  cases hpush
  cases hset
  refine ⟨⟨hnext, ⟨[⟨name, mid.current.nextSlot, hidden⟩], rfl, ?_⟩, hmax.1⟩, fun htop => ?_⟩
  · rw [hcons]
    rfl
  · have hle := hmax.2.trans htop
    rwa [hnext] at hle

/-- The variables of a block give their slots back at its end. -/
theorem Takes.enclosed (hm : Takes top d room m) :
    Takes top 0 room (enterBlock >>= fun _ => m >>= fun _ => exitBlock) := by
  intro c c' a hblocks hrun
  obtain ⟨_, _, henter, hrun⟩ := Exec.run_bind_eq_ok.mp hrun
  cases henter
  obtain ⟨_, mid, hrun, hexit⟩ := Exec.run_bind_eq_ok.mp hrun
  obtain ⟨⟨hnext, ⟨more, hmore, hmid⟩, hmax⟩, hroom⟩ := hm _ mid () (List.cons_ne_nil _ _) hrun
  cases hexit
  have hpop : mid.current.popBlock.held = (c.current.blocks,
      .ofNat (mid.current.nextSlot.toNat - (UInt8.ofNat more.length).toNat),
      mid.current.maxLocals) := by
    have hmid' : mid.current.blocks = more :: c.current.blocks := by
      rw [hmid]
      exact congrArg (· :: c.current.blocks) (List.append_nil more)
    unfold FunctionScope.popBlock
    rw [hmid']
    rfl
  have hnext' : mid.current.nextSlot.toNat = c.current.nextSlot.toNat + d := hnext
  have hback : UInt8.ofNat (mid.current.nextSlot.toNat - (UInt8.ofNat more.length).toNat) =
      c.current.nextSlot := by
    have hlt : d < 256 := (Nat.le_add_left d _).trans_lt (hnext' ▸ mid.current.nextSlot.toNat_lt)
    rw [hmore, UInt8.toNat_ofNat_of_lt' hlt, hnext', Nat.add_sub_cancel, UInt8.ofNat_toNat]
  obtain ⟨block, rest, hcons⟩ := List.exists_cons_of_ne_nil hblocks
  obtain ⟨hblocks', hslots, hlocals⟩ : mid.current.popBlock.blocks = c.current.blocks ∧
      mid.current.popBlock.nextSlot = c.current.nextSlot ∧
      mid.current.popBlock.maxLocals = mid.current.maxLocals := by
    rw [hback] at hpop
    simpa [FunctionScope.held] using hpop
  refine ⟨⟨congrArg UInt8.toNat hslots, ⟨[], rfl, ?_⟩, hlocals ▸ hmax⟩, fun htop => ?_⟩
  · rw [hblocks', hcons]
    rfl
  · rw [hlocals] at htop
    exact hroom htop

theorem Takes.compileBlockWith (hm : Takes top d room m) (hk : Still k) :
    Takes top 0 room (compileBlockWith m k) := by
  have h := (hm.before fun _ => hk).enclosed
  simp only [Exec.bind_assoc] at h
  exact h

theorem Takes.compileLocals (names : List (Bytes × Span)) (hms : ∀ m ∈ ms, Still m) :
    Takes top names.length (fun n => ∀ i < names.length, n + i < top)
      (compileLocals line names ms) := by
  induction names generalizing ms with
  | nil => exact (of_still (.pure ())).mono fun _ _ i hi => absurd hi (Nat.not_lt_zero i)
  | cons p names ih =>
    have hfirst {m : Codegen Unit} {rest : List (Codegen Unit)} (hm : Still m)
        (hrest : ∀ m ∈ rest, Still m) :
        Takes top (names.length + 1) (fun n => ∀ i < names.length + 1, n + i < top) (do
          m
          let slot ← declareLocal p.1 p.2.line false
          emitAll line [.storeLocal slot]
          Compiler.compileLocals line names rest) := by
      have h : Takes top (1 + names.length) _ _ := Takes.after hm fun _ =>
        (takes_declareLocal p.1 p.2.line false).bind fun slot =>
          Takes.after (.emitAll line [.storeLocal slot]) fun _ => ih hrest
      rw [Nat.add_comm] at h
      refine h.mono fun n hroom i hi => ?_
      cases i with
      | zero => exact hroom.1
      | succ i =>
        have hi' := hroom.2 i (Nat.lt_of_succ_lt_succ hi)
        omega
    cases ms with
    | nil => exact hfirst (.emitAll line [.pushNil]) nofun
    | cons m rest =>
      rw [List.forall_mem_cons] at hms
      exact hfirst hms.1 hms.2

theorem Takes.compileElseifs {clauses : List (Codegen Unit × Codegen Unit × UInt32)}
    {roomRest : Nat → Prop} (hm : Still m) (hk : Takes top 0 room k)
    (hrest : Takes top 0 roomRest (compileElseifs clauses)) :
    Takes top 0 (fun n => room n ∧ roomRest n) (compileElseifs ((m, k, line) :: clauses)) :=
  .after hm fun _ => .after (.emit (.jmpIfNot 0) line) fun jmpFalse => hk.seq fun _ =>
    .after (.emit (.jmp 0) line) fun jmpEnd => .after (.patchJump jmpFalse) fun _ =>
      hrest.before fun endJumps => .pure (jmpEnd :: endJumps)

theorem Takes.compileIf {clauses : List (Codegen Unit × Codegen Unit × UInt32)}
    {roomClauses roomElse : Nat → Prop} {compileElse : Option (Codegen Unit)} (hm : Still m)
    (hthen : Takes top 0 room k)
    (hclauses : Takes top 0 roomClauses (Compiler.compileElseifs clauses))
    (helse : Takes top 0 roomElse (compileElse.getD (pure ()))) :
    Takes top 0 (fun n => room n ∧ roomClauses n ∧ roomElse n)
      (compileIf m k clauses compileElse line) := by
  have hrest (jmpFalse : Nat) (endJump : List Nat) :
      Takes top 0 (fun n => roomClauses n ∧ roomElse n) (do
        patchJump jmpFalse
        let endJumps ← Compiler.compileElseifs clauses
        compileElse.getD (pure ())
        patchJumps (endJump ++ endJumps)) :=
    .after (.patchJump jmpFalse) fun _ => hclauses.seq fun endJumps =>
      helse.before fun _ => .patchJumps (endJump ++ endJumps)
  refine .after hm fun _ => .after (.emit (.jmpIfNot 0) line) fun jmpFalse => ?_
  refine hthen.seq fun _ => ?_
  cases compileElse with
  | none =>
    dsimp only
    split_ifs
    · exact .after (.emit (.jmp 0) line) fun jmpEnd => hrest jmpFalse [jmpEnd]
    · exact hrest jmpFalse []
  | some n =>
    dsimp only
    split_ifs
    · exact .after (.emit (.jmp 0) line) fun jmpEnd => hrest jmpFalse [jmpEnd]
    · exact hrest jmpFalse []

theorem Takes.compileWhile (hm : Still m) (hk : Takes top 0 room k) :
    Takes top 0 room (compileWhile m k line) :=
  .after .codeLength fun start => .after (.pushBreakScope 0) fun _ => .after hm fun _ =>
    .after (.emit _ _) fun jmpExit => hk.before fun _ =>
      (Still.emitBackJump start line).bind fun _ => (Still.patchJump jmpExit).bind fun _ =>
        Still.popBreakScope.bind fun patches => .patchJumps patches

theorem Still.compileLoopCheck (i l s : UInt8) : Still (compileLoopCheck i l s line) :=
  (Still.addConstant _ _).bind fun _ => (Still.emitAll _ _).bind fun _ => (Still.emit _ _).bind
    fun jmpPositive => (Still.emitAll _ _).bind fun _ => (Still.emit _ _).bind fun _ =>
      (Still.emit _ _).bind fun jmpContinue => (Still.patchJump jmpPositive).bind fun _ =>
        (Still.emitAll _ _).bind fun _ => (Still.emit _ _).bind fun _ =>
          (Still.patchJump jmpContinue).bind fun _ => .pure _

theorem Takes.compileHidden (hm : Still m) (name : Bytes) :
    Takes top 1 (· < top) (compileHidden name m line) :=
  .after hm fun _ => (takes_declareLocal name line true).before fun _ =>
    (Still.emitAll _ _).bind fun _ => .pure _

theorem Takes.compileTurns (i l s v : UInt8) (hk : Takes top 0 room k) :
    Takes top 0 room (compileTurns i l s v k line) :=
  .after .codeLength fun start => .after (.pushBreakScope 0) fun _ =>
    .after (.compileLoopCheck i l s) fun jumps => .after (.emitAll _ _) fun _ => hk.before fun _ =>
      (Still.emitAll _ _).bind fun _ => (Still.emitBackJump start line).bind fun _ =>
        (Still.patchJump jumps.1).bind fun _ => (Still.patchJump jumps.2).bind fun _ =>
          Still.popBreakScope.bind fun patches => .patchJumps patches

theorem Takes.compileNumericFor {var : Bytes} {varSpan : Span} {mStart mLimit : Codegen Unit}
    {step : Option (Codegen Unit)} (hstart : Still mStart) (hlimit : Still mLimit)
    (hstep : Still (compileStep step line)) (hk : Takes top 0 room k) :
    Takes top 0 (fun n => n + 4 ≤ top ∧ room (n + 4))
      (compileNumericFor var varSpan mStart mLimit step k line) := by
  have hidden {m : Codegen Unit} (hm : Still m) (name : Bytes) :
      Takes top 1 (· < top) (Compiler.compileHidden name m line) := .compileHidden hm name
  have turns (i l s v : UInt8) : Takes top 0 room (Compiler.compileTurns i l s v k line) :=
    .compileTurns i l s v hk
  have h := ((hidden hstart (ascii "(for_i)")).bind fun i =>
    (hidden hlimit (ascii "(for_lim)")).bind fun l =>
    (hidden hstep (ascii "(for_step)")).bind fun s =>
    (takes_declareLocal var varSpan.line false).bind fun v => turns i l s v).enclosed
  simp only [Exec.bind_assoc, Compiler.compileTurns] at h
  exact h.mono fun n hroom => ⟨hroom.2.2.2.1, hroom.2.2.2.2⟩

end Statements

end Compiler

namespace Expr.Plain

open Compiler

/-- The code of an expression that calls nothing and makes nothing takes no slots. -/
theorem still {e : Expr} (h : e.Plain) :
    Still e.compiled.whole ∧ ∀ m ∈ e.compiled.parts, Still m := by
  have hsingle {m : Codegen Unit} (hm : Still m) :
      Still (Parts.single m).whole ∧ ∀ m' ∈ (Parts.single m).parts, Still m' :=
    ⟨hm, List.forall_mem_singleton.mpr hm⟩
  induction h with
  | nil s | true s | false s => exact hsingle (.emitAll _ _)
  | integer n s | stringLit bytes s => exact hsingle (.compileConstant _ _)
  | name name s => exact hsingle (.compileName _ _)
  | @binOp op left right s _ _ ihleft ihright =>
    cases op
    case concat =>
      have hparts : ∀ m ∈ left.compiled.parts ++ right.compiled.parts, Still m :=
        List.forall_mem_append.mpr ⟨ihleft.2, ihright.2⟩
      exact ⟨(Still.inOrder hparts).bind fun _ => .emitAll _ _, hparts⟩
    case and | or =>
      exact hsingle (ihleft.1.bind fun _ => (Still.emit _ _).bind fun _ =>
        (Still.emitAll _ _).bind fun _ => ihright.1.bind fun _ => .patchJump _)
    all_goals
      exact hsingle (ihleft.1.bind fun _ => ihright.1.bind fun _ => .emitAll _ _)
  | unOp op s _ ih => exact hsingle (ih.1.bind fun _ => .emitAll _ _)

end Expr.Plain

section Syntax

open Compiler

variable {top : Nat}

theorem compileExprs_eq_map (es : List Expr) : compileExprs es = es.map Expr.compiled := by
  induction es with
  | nil => rfl
  | cons e rest ih => rw [compileExprs, ih, List.map_cons]

/-- The special case of a protected call is none for plain values. -/
theorem compileLocalDecl_eq {names : List (Bytes × Span)} {values : List Expr} {line : UInt32}
    (h : ∀ e ∈ values, e.Plain) :
    compileLocalDecl names values (compileExprs values) line =
      compileLocals line names ((compileExprs values).map (·.whole)) := by
  unfold compileLocalDecl
  split
  · have hcall := h _ (List.mem_singleton_self _)
    cases hcall
  · rfl

mutual

theorem Stmt.takes (top : Nat) : (stmt : Stmt) → stmt.Plain →
    Takes top stmt.declared (stmt.Room top) stmt.compile
  | .localDecl names values s, h => by
    have hstill : ∀ m ∈ (compileExprs values).map (·.whole), Still m := by
      rw [compileExprs_eq_map, List.map_map]
      intro m hm
      obtain ⟨e, he, rfl⟩ := List.mem_map.mp hm
      exact (h e he).still.1
    rw [Stmt.compile, compileLocalDecl_eq h]
    exact .compileLocals names hstill
  | .assign (.name name span) value s, h => by
    refine .of_still ((Still.resolveVar name).bind fun var => h.still.1.bind fun _ => ?_)
    cases var with
    | «local» slot => exact .emitAll _ _
    | upvalue idx => exact .emitAll _ _
    | global => exact .fail _
  | .ifStmt condition thenBlock clauses none s, h =>
    have helse : Takes top 0 (fun _ => True) ((none : Option (Codegen Unit)).getD (pure ())) :=
      .of_still (.pure ())
    (Takes.compileIf h.1.still.1 (thenBlock.takes top h.2.1) (clauses_take top clauses h.2.2)
      helse).mono fun _ hroom => ⟨hroom.1, hroom.2.1⟩
  | .ifStmt condition thenBlock clauses (some elseBlock) s, h =>
    .compileIf h.1.still.1 (thenBlock.takes top h.2.1) (clauses_take top clauses h.2.2.1)
      (elseBlock.takes top h.2.2.2)
  | .whileStmt condition block s, h => .compileWhile h.1.still.1 (block.takes top h.2)
  | .numericFor var varSpan start limit none block s, h =>
    .compileNumericFor h.1.still.1 h.2.1.still.1 (.compileConstant _ _) (block.takes top h.2.2)
  | .numericFor var varSpan start limit (some step) block s, h =>
    .compileNumericFor h.1.still.1 h.2.1.still.1 h.2.2.1.still.1 (block.takes top h.2.2.2)
  | .breakStmt s, _ => .of_still (.compileBreak _)
  | .doBlock block s, h => block.takes top h

theorem clauses_take (top : Nat) : (clauses : List ElseifClause) → PlainClauses clauses →
    Takes top 0 (RoomClauses top clauses) (compileElseifs (compileClauses clauses))
  | [], _ => .of_still (.pure [])
  | .mk _ block _ :: rest, h =>
    .compileElseifs h.1.still.1 (block.takes top h.2.1) (clauses_take top rest h.2.2)

theorem stmts_take (top : Nat) : (stmts : List Stmt) → PlainStmts stmts →
    ∃ d, Takes top d (RoomStmts top stmts) (compileStmts stmts)
  | [], _ => ⟨0, .of_still (.pure ())⟩
  | stmt :: rest, h => by
    obtain ⟨d, hrest⟩ := stmts_take top rest h.2
    exact ⟨_, (stmt.takes top h.1).bind fun _ => hrest⟩

theorem Block.takes (top : Nat) : (block : Block) → block.Plain →
    Takes top 0 (block.Room top) block.compile
  | .mk stmts ret s, h => by
    have hret : Still (compileRet ret) := by
      rcases ret with - | ⟨⟨- | value, s⟩⟩
      · exact .pure ()
      · exact .emitAll _ _
      · exact h.2.still.1.bind fun _ => .emitAll _ _
    obtain ⟨d, hstmts⟩ := stmts_take top stmts h.1
    exact hstmts.compileBlockWith hret

end

end Syntax

namespace Compiler

end Compiler

end Proveno
