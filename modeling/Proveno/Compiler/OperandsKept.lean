import Proveno.Compiler.Operands

/-! Each construct is compiled into instructions whose operands are in range, where this holds
of its parts. -/

namespace Proveno

open List (Forall₂)

namespace Compiler

variable {n : Nat} {pre : List Instruction} {line : UInt32} {m k : Codegen Unit}
  {ms : List (Codegen Unit)} {name : Bytes}

theorem keeps_none : ∀ m ∈ (none : Option (Codegen Unit)), KeepsRange m := fun _ h => by cases h

theorem keeps_some (hm : KeepsRange m) : ∀ k ∈ some m, KeepsRange k := by
  intro k hk
  cases hk
  exact hm

theorem keeps_free {instrs : List Instruction} (h : ∀ instr ∈ instrs, instr.Free) :
    Keeps n pre (emitAll line instrs) n fun _ => [] :=
  keeps_emitAll fun instr hmem => .inr (h instr hmem)

theorem keeps_plain {instrs : List Instruction} (h : instrs.any Instruction.refers = false) :
    Keeps n pre (emitAll line instrs) n fun _ => [] :=
  keeps_free fun instr hmem =>
    .of_refers (Bool.eq_false_iff.mpr (List.any_eq_false.mp h instr hmem))

theorem free_jump (kind : JumpKind) {off : Int16} : (kind.instruction off).Free := by
  cases kind <;> exact fun _ _ _ _ => trivial

theorem keeps_compileConstant (k : Constant) :
    Keeps n pre (compileConstant k line) n fun _ => [] :=
  (keeps_addConstant k).bind fun _ => keeps_emitAll (by simp)

theorem keeps_compileName : KeepsRange (compileName name line) := by
  unfold compileName
  by_cases htool : name = ascii "tool"
  · rw [if_pos htool]
    exact .fail _
  by_cases hiter : (iterKindOf name).isSome
  · rw [if_neg htool, if_pos hiter]
    exact .fail _
  rw [if_neg htool, if_neg hiter]
  refine (keeps_resolveVar name).bind fun var => ?_
  cases var with
  | «local» slot => exact keeps_emitAll (by simp [accesses, slotAccesses])
  | upvalue idx => exact keeps_emitAll (by simp [accesses])
  | global =>
    dsimp only
    split_ifs
    · exact (keeps_addStringConstant _).bind fun idx => keeps_emitAll (by simp)
    · exact .fail _

section Expressions

theorem keeps_compileField {table : Expr} (hm : KeepsRange m) :
    KeepsRange (compileField table m name line) := by
  unfold compileField
  split_ifs
  · exact .fail _
  · exact hm.seq ((keeps_addStringConstant _).bind fun idx => keeps_emitAll (by simp))

theorem keeps_compileIndex (hm : KeepsRange m) (hk : KeepsRange k) :
    KeepsRange (compileIndex m k line) :=
  hm.seq (hk.seq (keeps_plain rfl))

theorem keeps_compileNamedKey (hm : KeepsRange m) : KeepsRange (compileNamedKey name m line) :=
  (keeps_plain rfl).seq
    ((keeps_addStringConstant _).bind fun idx => hm.within.seq (keeps_emitAll (by simp)))

theorem keeps_compileExplicitKey (hm : KeepsRange m) (hk : KeepsRange k) :
    KeepsRange (compileExplicitKey m k line) :=
  (keeps_plain rfl).seq
    (hm.seq (hk.seq (keeps_plain rfl)))

theorem keeps_compilePositional {autoIdx : Int64} (hm : KeepsRange m) :
    KeepsRange (compilePositional autoIdx m line) :=
  (keeps_plain rfl).seq
    ((keeps_addConstant _).bind fun idx => (keeps_emitAll (by simp)).seq
      (hm.within.seq (keeps_plain rfl)))

theorem keeps_compileShortCircuit {jump : Instruction} (hjump : jump.Free) (hm : KeepsRange m)
    (hk : KeepsRange k) : KeepsRange (compileShortCircuit jump m k line) :=
  hm.seq ((keeps_emit (.inr hjump)).bind fun idx =>
    (keeps_plain rfl).seq
      (hk.seq (keeps_patchJump idx)))

theorem keeps_compileStrict {instr : Instruction} (hinstr : instr.Free) (hm : KeepsRange m)
    (hk : KeepsRange k) : KeepsRange (compileStrict instr m k line) :=
  hm.seq (hk.seq (keeps_free (List.forall_mem_singleton.mpr hinstr)))

theorem keeps_inOrder (h : ∀ m ∈ ms, KeepsRange m) : KeepsRange (inOrder ms) := by
  induction ms with
  | nil => exact .pure ()
  | cons m rest ih =>
    rw [List.forall_mem_cons] at h
    exact h.1.seq (ih h.2)

theorem keeps_compileConcatExpr (h : ∀ m ∈ ms, KeepsRange m) (htwo : 2 ≤ ms.length)
    (hfew : ms.length ≤ 255) : KeepsRange (compileConcatExpr ms line) := by
  refine (keeps_inOrder h).seq (keeps_free (List.forall_mem_singleton.mpr fun _ _ _ _ => ?_))
  change 2 ≤ (UInt8.ofNat ms.length).toNat
  rwa [UInt8.toNat_ofNat_of_lt' (Nat.lt_succ_of_le hfew)]

theorem free_unOp (op : UnOpKind) : op.instruction.Free := by
  cases op <;> exact fun _ _ _ _ => trivial

theorem keeps_compileUnOp {op : UnOpKind} (hm : KeepsRange m) :
    KeepsRange (compileUnOp op m line) :=
  hm.seq (keeps_free (List.forall_mem_singleton.mpr (free_unOp op)))

end Expressions

section Calls

theorem keeps_compileToolCall (h : ∀ m ∈ ms, KeepsRange m) :
    KeepsRange (compileToolCall ms line) := by
  unfold compileToolCall
  split
  · simp only [List.forall_mem_cons] at h
    exact h.1.seq (h.2.1.seq (keeps_plain rfl))
  · exact .fail _

theorem keeps_compileFirst (h : ∀ m ∈ ms, KeepsRange m) : KeepsRange (compileFirst ms line) := by
  cases ms with
  | nil => exact keeps_plain rfl
  | cons m rest => exact h m List.mem_cons_self

theorem keeps_compilePcallTwoValues (h : ∀ m ∈ ms, KeepsRange m) :
    KeepsRange (compilePcallTwoValues ms line) := by
  cases ms with
  | nil => exact keeps_plain rfl
  | cons m rest =>
    rw [List.forall_mem_cons] at h
    exact h.1.seq ((keeps_inOrder h.2).seq
      (keeps_plain rfl))

theorem keeps_compileNormalCall (hm : KeepsRange m) (h : ∀ m ∈ ms, KeepsRange m) :
    KeepsRange (compileNormalCall m ms line) :=
  hm.seq ((keeps_inOrder h).seq (keeps_plain rfl))

theorem keeps_compileCall (func : Expr) (hm : KeepsRange m) (h : ∀ m ∈ ms, KeepsRange m) :
    KeepsRange (compileCall func m ms line) := by
  unfold compileCall
  split_ifs with htool
  · exact keeps_compileToolCall h
  · cases func with
    | name name span =>
      dsimp only
      split_ifs
      · exact .fail _
      · exact (keeps_compilePcallTwoValues h).seq
          (keeps_plain rfl)
      · exact (keeps_compileFirst h).seq
          (keeps_plain rfl)
      · exact (keeps_compileFirst h).seq
          (keeps_plain rfl)
      · exact keeps_compileNormalCall hm h
    | _ => exact keeps_compileNormalCall hm h

theorem keeps_compileMethodCall {method : Bytes} (hm : KeepsRange m)
    (h : ∀ m ∈ ms, KeepsRange m) : KeepsRange (compileMethodCall m method ms line) := by
  have hdup : Instruction.dup.Free := .of_refers rfl
  refine hm.seq (keeps_allocTempSlot.bind fun tmp => ?_)
  refine (keeps_emitAll (by simp [slotAccesses, hdup])).seq ?_
  refine (keeps_addStringConstant method).bind fun idx => ?_
  refine (keeps_emitAll (by simp [slotAccesses])).seq (keeps_freeTempSlot.seq ?_)
  refine (keeps_inOrder h).within.seq ((keeps_addU8 _ _).bind fun argc => ?_)
  exact keeps_plain rfl

end Calls

section Declarations

theorem keeps_compileLocals (names : List (Bytes × Span)) (h : ∀ m ∈ ms, KeepsRange m) :
    KeepsRange (compileLocals line names ms) := by
  induction names generalizing ms with
  | nil => exact .pure ()
  | cons var names ih =>
    obtain ⟨name, span⟩ := var
    have hstore (values : List (Codegen Unit)) (hvalues : ∀ m ∈ values, KeepsRange m) :
        KeepsRange (declareLocal name span.line false >>= fun slot =>
          emitAll line [.storeLocal slot] >>= fun _ => compileLocals line names values) :=
      (keeps_declareLocal name false).bind fun slot =>
        (keeps_emitAll (by simp [slotAccesses])).seq (ih hvalues).within
    cases ms with
    | nil =>
      exact (keeps_plain rfl).seq
        (hstore [] (List.forall_mem_nil _))
    | cons m rest =>
      rw [List.forall_mem_cons] at h
      exact h.1.seq (hstore rest h.2)

theorem keeps_compilePcallLocals (a b : Bytes × Span) (names : List (Bytes × Span))
    {callLine : UInt32} (h : ∀ m ∈ ms, KeepsRange m) :
    KeepsRange (compilePcallLocals a b names ms callLine line) := by
  refine (keeps_compilePcallTwoValues h).seq ?_
  refine (keeps_declareLocal a.1 false).bind fun slotA => ?_
  refine (keeps_declareLocal b.1 false).bind fun slotB => ?_
  exact (keeps_emitAll (by simp [slotAccesses])).seq
    (keeps_compileLocals names (List.forall_mem_nil _)).within

/-- Of what is made of an expression every part keeps the operands in range. -/
structure KeepsParts (p : Compiled) : Prop where
  whole : KeepsRange p.whole
  parts : ∀ m ∈ p.parts, KeepsRange m
  args : ∀ m ∈ p.args, KeepsRange m

theorem KeepsParts.single (hm : KeepsRange m) : KeepsParts (.single m) :=
  ⟨hm, List.forall_mem_singleton.mpr hm, List.forall_mem_nil _⟩

theorem keepsParts_whole {ps : List Compiled} (h : ∀ p ∈ ps, KeepsParts p) :
    ∀ m ∈ ps.map (·.whole), KeepsRange m :=
  List.forall_mem_map.mpr fun p hp => (h p hp).whole

theorem keeps_compileLocalDecl (names : List (Bytes × Span)) (values : List Expr)
    {ps : List Compiled} (h : ∀ p ∈ ps, KeepsParts p) :
    KeepsRange (compileLocalDecl names values ps line) := by
  have hlocals : KeepsRange (compileLocals line names (ps.map (·.whole))) :=
    keeps_compileLocals names (keepsParts_whole h)
  unfold compileLocalDecl
  split
  · split_ifs
    · exact keeps_compilePcallLocals _ _ _ (h _ List.mem_cons_self).args
    · exact hlocals
  · exact hlocals

theorem keeps_compileAssignName {span : Span} (hm : KeepsRange m) :
    KeepsRange (compileAssignName name span m line) := by
  refine (keeps_resolveVar name).bind fun var => hm.within.seq ?_
  cases var with
  | «local» slot => exact keeps_emitAll (by simp [accesses, slotAccesses])
  | upvalue idx => exact keeps_emitAll (by simp [accesses])
  | global => exact .fail _

theorem keeps_compileAssignIndex {m' : Codegen Unit} (key : Expr) (hm : KeepsRange m)
    (hk : KeepsRange k) (hm' : KeepsRange m') :
    KeepsRange (compileAssignIndex m key k m' line) := by
  refine hm.seq ?_
  have hexplicit : KeepsRange (k >>= fun _ => m' >>= fun _ => emitAll line [.setTable]) :=
    hk.seq (hm'.seq (keeps_plain rfl))
  cases key with
  | stringLit bytes span =>
    exact (keeps_addStringConstant _).bind fun idx => hm'.within.seq (keeps_emitAll (by simp))
  | _ => exact hexplicit

end Declarations

section Loops

theorem keeps_compileElseifs {clauses : List (Codegen Unit × Codegen Unit × UInt32)}
    (h : ∀ clause ∈ clauses, KeepsRange clause.1 ∧ KeepsRange clause.2.1) :
    Keeps 0 [] (compileElseifs clauses) 0 fun _ => [] := by
  induction clauses with
  | nil => exact .pure []
  | cons clause rest ih =>
    rw [List.forall_mem_cons] at h
    obtain ⟨⟨hcondition, hblock⟩, hrest⟩ := h
    exact hcondition.seq ((keeps_emit (.inr (free_jump .jmpIfNot))).bind fun jmpFalse =>
      hblock.seq ((keeps_emit (.inr (free_jump .jmp))).bind fun jmpEnd =>
        (keeps_patchJump jmpFalse).seq ((ih hrest).bind fun endJumps => .pure _)))

theorem keeps_else (orElse : Option (Codegen Unit)) (endJumps : List Nat) :
    (∀ block ∈ orElse, KeepsRange block) → KeepsRange (match orElse with
      | some compileBlock => compileBlock >>= fun _ => patchJumps endJumps
      | none => patchJumps endJumps) := by
  intro helse
  cases orElse with
  | none => exact keeps_patchJumps _
  | some block => exact (helse block rfl).seq (keeps_patchJumps _)

theorem keeps_compileIf {clauses : List (Codegen Unit × Codegen Unit × UInt32)}
    {orElse : Option (Codegen Unit)} (hm : KeepsRange m) (hk : KeepsRange k)
    (h : ∀ clause ∈ clauses, KeepsRange clause.1 ∧ KeepsRange clause.2.1)
    (helse : ∀ block ∈ orElse, KeepsRange block) :
    KeepsRange (compileIf m k clauses orElse line) := by
  refine hm.seq ((keeps_emit (.inr (free_jump .jmpIfNot))).bind fun jmpFalse => hk.seq ?_)
  dsimp only
  split_ifs
  · exact (keeps_emit (.inr (free_jump .jmp))).bind fun jmpEnd => (keeps_patchJump jmpFalse).seq
      ((keeps_compileElseifs h).bind fun endJumps => keeps_else orElse ([jmpEnd] ++ endJumps) helse)
  · exact (keeps_patchJump jmpFalse).seq
      ((keeps_compileElseifs h).bind fun endJumps => keeps_else orElse endJumps helse)

theorem keeps_compileWhile (hm : KeepsRange m) (hk : KeepsRange k) :
    KeepsRange (compileWhile m k line) :=
  keeps_codeLength.bind fun loopStart => (keeps_pushBreakScope 0).seq (hm.seq
    ((keeps_emit (.inr (free_jump .jmpIfNot))).bind fun jmpExit => hk.seq
      ((keeps_emitBackJump loopStart).seq ((keeps_patchJump jmpExit).seq
        (keeps_popBreakScope.bind fun patches => keeps_patchJumps patches)))))

theorem keeps_compileStep {step : Option (Codegen Unit)} (h : ∀ m ∈ step, KeepsRange m) :
    KeepsRange (compileStep step line) := by
  cases step with
  | none => exact keeps_compileConstant _
  | some m => exact h m rfl

theorem keeps_compileHidden (hm : KeepsRange m) :
    Keeps 0 pre (compileHidden name m line) 0 slotAccesses := by
  refine hm.within.seq ((keeps_declareLocal name true).bind fun slot =>
    (keeps_emitAll (by simp [slotAccesses])).seq fun c c' a hsound hpre hrun => ?_)
  cases hrun
  exact ⟨hsound, .refl c, fun instr hmem => hpre instr (List.mem_append_left _ hmem)⟩

theorem keeps_compileLoopCheck {iSlot limSlot stepSlot : UInt8} (hi : .loadLocal iSlot ∈ pre)
    (hlim : .loadLocal limSlot ∈ pre) (hstep : .loadLocal stepSlot ∈ pre) :
    Keeps 0 pre (compileLoopCheck iSlot limSlot stepSlot line) 0 fun _ => [] := by
  have hlt : Instruction.lt.Free := .of_refers rfl
  have hgt : Instruction.gt.Free := .of_refers rfl
  refine (keeps_addConstant _).bind fun zeroIdx => ?_
  refine (keeps_emitAll (by simp [hstep, hlt])).seq ?_
  refine (keeps_emit (.inr (free_jump .jmpIfNot))).bind fun jmpPositive => ?_
  refine (keeps_emitAll (by simp [hi, hlim, hlt])).seq ?_
  refine (keeps_emit (.inr (free_jump .jmpIf))).bind fun jmpExitNeg => ?_
  refine (keeps_emit (.inr (free_jump .jmp))).bind fun jmpContinue => ?_
  refine (keeps_patchJump jmpPositive).seq ?_
  refine (keeps_emitAll (by simp [hi, hlim, hgt])).seq ?_
  refine (keeps_emit (.inr (free_jump .jmpIf))).bind fun jmpExitPos => ?_
  exact (keeps_patchJump jmpContinue).seq (.pure _)

theorem keeps_compileNumericFor {var : Bytes} {varSpan : Span} {m' : Codegen Unit}
    {step : Option (Codegen Unit)} (hm : KeepsRange m) (hm' : KeepsRange m')
    (hstep : ∀ m ∈ step, KeepsRange m) (hk : KeepsRange k) :
    KeepsRange (compileNumericFor var varSpan m m' step k line) := by
  have hadd : Instruction.add.Free := .of_refers rfl
  refine keeps_enterBlock.seq ?_
  refine (keeps_compileHidden hm).bind fun iSlot => ?_
  refine (keeps_compileHidden hm').bind fun limSlot => ?_
  refine (keeps_compileHidden (keeps_compileStep hstep)).bind fun stepSlot => ?_
  refine (keeps_declareLocal var false).bind fun varSlot => ?_
  refine keeps_codeLength.bind fun loopStart => (keeps_pushBreakScope 0).seq ?_
  refine (keeps_compileLoopCheck (by simp [slotAccesses]) (by simp [slotAccesses])
    (by simp [slotAccesses])).bind fun jumps => ?_
  refine (keeps_emitAll (by simp [slotAccesses])).seq (hk.within.seq ?_)
  refine (keeps_emitAll (by simp [slotAccesses, hadd])).seq ?_
  refine (keeps_emitBackJump loopStart).seq ?_
  refine (keeps_patchJump jumps.1).seq ((keeps_patchJump jumps.2).seq ?_)
  exact keeps_popBreakScope.bind fun patches => (keeps_patchJumps patches).seq keeps_exitBlock

theorem keeps_declareLoopVars (vars : List (Bytes × Span)) :
    Keeps 0 pre (declareLoopVars vars line) 0 fun slots =>
      slotAccesses slots.1 ++ slotAccesses slots.2 := by
  have hpair (kSlot vSlot : UInt8) : Keeps 0 (slotAccesses vSlot ++ (slotAccesses kSlot ++ pre))
      (pure (kSlot, vSlot)) 0 fun slots => slotAccesses slots.1 ++ slotAccesses slots.2 := by
    intro c c' slots hsound hpre hrun
    cases hrun
    refine ⟨hsound, .refl c, fun instr hmem => hpre instr ?_⟩
    rcases List.mem_append.mp hmem with hk | hv
    · exact List.mem_append_right _ (List.mem_append_left _ hk)
    · exact List.mem_append_left _ hv
  unfold declareLoopVars
  rcases vars with - | ⟨⟨key, span⟩, - | ⟨⟨value, span'⟩, rest⟩⟩
  all_goals exact (keeps_declareLocal _ _).bind fun kSlot =>
    (keeps_declareLocal _ _).bind fun vSlot => hpair kSlot vSlot

theorem keeps_compileGenericLoop {kind : IterKind} {vars : List (Bytes × Span)}
    (hm : KeepsRange m) (hk : KeepsRange k) :
    KeepsRange (compileGenericLoop kind vars m k line) := by
  have hinit : kind.init.Free := by cases kind <;> exact fun _ _ _ _ => trivial
  refine hm.seq ((keeps_pushBreakScope 1).seq ?_)
  refine (keeps_emit (.inr hinit)).bind fun initIdx => ?_
  refine keeps_codeLength.bind fun loopTop => ?_
  refine (keeps_emit (.inr (free_jump .iterNext))).bind fun nextIdx => ?_
  refine keeps_enterBlock.seq ((keeps_declareLoopVars vars).bind fun slots => ?_)
  refine (keeps_emitAll (by simp [slotAccesses])).seq (hk.within.seq (keeps_exitBlock.seq ?_))
  refine (keeps_emitBackJump loopTop).seq (keeps_codeLength.bind fun loopEnd => ?_)
  refine (keeps_patchJumpTo nextIdx loopEnd).seq ((keeps_patchJumpTo initIdx loopEnd).seq ?_)
  exact keeps_popBreakScope.bind fun patches => keeps_patchJumpsTo loopEnd patches

theorem keeps_compileGenericFor {vars : List (Bytes × Span)} (iterators : List Expr)
    {ps : List Compiled} (h : ∀ p ∈ ps, KeepsParts p) (hk : KeepsRange k) :
    KeepsRange (compileGenericFor vars iterators ps k line) := by
  unfold compileGenericFor
  split
  · split
    · exact keeps_compileGenericLoop ((h _ List.mem_cons_self).args _ List.mem_cons_self) hk
    · exact .fail _
  · exact .fail _

theorem keeps_compileBreak : KeepsRange (compileBreak line) := by
  refine keeps_currentScope.bind fun scope => ?_
  cases scope.breakPatches with
  | nil => exact .fail _
  | cons loop rest =>
    have hpops : ∀ instr ∈ List.replicate loop.1 Instruction.pop, instr.Free := by
      intro instr hmem
      rw [List.eq_of_mem_replicate hmem]
      exact .of_refers rfl
    refine (keeps_free hpops).seq ((keeps_emit (.inr (free_jump .jmp))).bind fun idx =>
      fun c c' _ hsound _ hrun => ?_)
    rw [Exec.run_bind, currentScope] at hrun
    dsimp only at hrun
    cases hbreaks : c.current.breakPatches with
    | nil =>
      rw [hbreaks] at hrun
      cases hrun
    | cons loop rest =>
      rw [hbreaks] at hrun
      cases hrun
      exact ⟨hsound.breaks _, .work le_rfl rfl List.prefix_rfl, List.forall_mem_nil _⟩

theorem keeps_compileReturn {value : Option (Codegen Unit)} (h : ∀ m ∈ value, KeepsRange m) :
    KeepsRange (compileReturn value line) := by
  cases value with
  | none => exact keeps_plain rfl
  | some m =>
    exact (h m rfl).seq (keeps_plain rfl)

theorem keeps_compileBlockWith (hm : KeepsRange m) (hk : KeepsRange k) :
    KeepsRange (compileBlockWith m k) :=
  keeps_enterBlock.seq (hm.seq (hk.seq keeps_exitBlock))

theorem keeps_compileExprStmt (expr : Expr) (hm : KeepsRange m) :
    KeepsRange (compileExprStmt expr m line) := by
  cases expr with
  | call | methodCall => exact hm.seq (keeps_plain rfl)
  | _ => exact .fail _

end Loops

section Functions

theorem keeps_emitBase {var : VarRef} (h : accesses var ⊆ pre) :
    Keeps n pre (emitBase name var line) n fun _ => [] := by
  cases var with
  | «local» slot => exact keeps_emitAll fun i hi => .inl (h (by simp_all [accesses, slotAccesses]))
  | upvalue idx => exact keeps_emitAll fun i hi => .inl (h (by simp_all [accesses]))
  | global => exact .fail _

theorem keeps_emitFields (parts : List Bytes) :
    Keeps n pre (emitFields line parts) n fun _ => [] := by
  induction parts with
  | nil => exact .pure ()
  | cons part rest ih =>
    exact (keeps_addStringConstant part).bind fun idx => (keeps_emitAll (by simp)).seq
      (ih.mono (List.subset_append_right _ _))

theorem keeps_storeFuncName (parts : List Bytes) : KeepsRange (storeFuncName parts line) := by
  unfold storeFuncName
  rcases parts with - | ⟨base, - | ⟨part, rest⟩⟩
  · exact .panic
  · refine (keeps_resolveVar base).bind fun var => ?_
    cases var with
    | «local» slot => exact keeps_emitAll (by simp [accesses, slotAccesses])
    | upvalue idx => exact keeps_emitAll (by simp [accesses])
    | global =>
      exact (keeps_declareLocal base false).bind fun slot =>
        keeps_emitAll (by simp [slotAccesses])
  · refine (keeps_resolveVar base).bind fun var => ?_
    refine (keeps_emitBase (List.subset_append_left _ _)).seq ((keeps_emitFields _).seq ?_)
    refine keeps_allocTempSlot.bind fun tmp => ?_
    refine (keeps_emitAll (by simp [slotAccesses])).seq ?_
    refine (keeps_emitBase (by simp)).seq ((keeps_emitFields _).seq ?_)
    refine (keeps_emitAll (by simp [slotAccesses])).seq (keeps_freeTempSlot.seq ?_)
    exact (keeps_addStringConstant _).bind fun idx => keeps_emitAll (by simp)

/-- A function is compiled into a prototype that the function around can make a closure of. -/
abbrev KeepsClosure (m : Codegen UInt16) : Prop := Keeps 0 [] m 0 fun idx => [.closure idx]

theorem keeps_compileFuncDef {m : Codegen UInt16} (hm : KeepsClosure m) :
    KeepsRange (compileFuncDef m line) :=
  hm.bind fun idx => keeps_emitAll (by simp)

theorem keeps_compileFunctionDecl {parts : List (Bytes × Span)} {method : Option (Bytes × Span)}
    {compileBody : List Bytes → Codegen UInt16}
    (h : ∀ extraParams, extraParams.length ≤ 1 → KeepsClosure (compileBody extraParams)) :
    KeepsRange (compileFunctionDecl parts method compileBody line) := by
  refine (h _ ?_).bind fun idx => (keeps_emitAll (by simp)).seq (keeps_storeFuncName _).within
  split_ifs <;> simp

theorem keeps_compileLocalFunctionDecl {nameSpan : Span} {m : Codegen UInt16}
    (hm : KeepsClosure m) : KeepsRange (compileLocalFunctionDecl name nameSpan m line) :=
  have hnil : Instruction.pushNil.Free := .of_refers rfl
  (keeps_declareLocal name false).bind fun slot =>
    (keeps_emitAll (by simp [slotAccesses, hnil])).seq
      ((hm.mono (List.nil_subset _)).bind fun idx => keeps_emitAll (by simp [slotAccesses]))

/-- The parameters are at the first slots. -/
theorem run_registerParams {names : List Bytes} {slot : UInt8} (vs : List LocalVar)
    {c c' : Compiler} (hblocks : c.current.blocks = [vs]) (hfew : slot.toNat + names.length < 256)
    (hvs : vs.map (·.slot.toNat) = (List.range slot.toNat).reverse)
    (hrun : (registerParams names slot).run c = (.ok (), c')) :
    ∃ vs', c' = { c with current := { c.current with blocks := [vs'] } } ∧
      vs'.map (·.slot.toNat) = (List.range (slot.toNat + names.length)).reverse := by
  induction names generalizing slot vs c with
  | nil =>
    cases hrun
    exact ⟨vs, by rw [← hblocks], hvs⟩
  | cons name rest ih =>
    obtain ⟨_, c₁, hrun₁, hrun⟩ := Exec.run_bind_eq_ok.mp hrun
    obtain ⟨next, c₂, hadd, hrun₂⟩ := Exec.run_bind_eq_ok.mp hrun
    obtain ⟨rfl, rfl⟩ := run_addU8_eq_ok hadd
    have hc : c₂ = { c with current := { c.current with
        blocks := [⟨name, slot, false⟩ :: vs] } } := by
      rw [registerParam, Exec.run_bind, currentScope] at hrun₁
      simp only [FunctionScope.pushLocal, hblocks] at hrun₁
      cases hrun₁
      rfl
    subst hc
    rw [List.length_cons] at hfew
    have hnext : (slot + 1).toNat = slot.toNat + 1 := by
      rw [UInt8.toNat_add, Nat.mod_eq_of_lt]
      · rfl
      · change slot.toNat + 1 < 256
        omega
    obtain ⟨vs', rfl, hvs'⟩ := ih (⟨name, slot, false⟩ :: vs) rfl (by omega) (by
      rw [List.map_cons, hvs, hnext, List.range_succ, List.reverse_append, List.reverse_singleton,
        List.singleton_append]) hrun₂
    refine ⟨vs', rfl, ?_⟩
    rw [hvs', hnext, List.length_cons, Nat.add_right_comm, Nat.add_assoc]

/-- A function that has been entered, with its parameters. -/
theorem Sound.entered {c : Compiler} (h : c.Sound 0) {count : Nat} (hcount : count ≤ 201)
    (vs : List LocalVar) (hvs : vs.map (·.slot.toNat) = (List.range count).reverse) :
    Sound 0 { c with
      current := { FunctionScope.new (.ofNat count) with blocks := [vs] }
      enclosing := c.current :: c.enclosing } := by
  have hvalid := h.valid.entered (.ofNat count)
  have hlength : vs.length = count := by simpa using congrArg List.length hvs
  have hslot : (UInt8.ofNat count).toNat = count :=
    UInt8.toNat_ofNat_of_lt' (show count < 256 by omega)
  refine ⟨hvalid.work rfl hvalid.pool rfl rfl, ⟨rfl, ?_, ?_, le_rfl, List.forall_mem_nil _⟩,
    List.forall_mem_cons.mpr ⟨h.current, h.enclosing⟩, h.prototypes, h.points⟩
  · change (Point.slots ⟨[vs].flatten, []⟩).map _ = (List.range (UInt8.ofNat count).toNat).reverse
    rw [hslot, ← hvs]
    simp [Point.slots]
  · simpa [hlength] using hcount

theorem Sound.finish {c : Compiler} (h : c.Sound n) : c.current.finish.Bounded c.prototypes := by
  refine ⟨fun instr hinstr => ?_, by simp [FunctionScope.finish]⟩
  have hupvalues : c.current.finish.upvalues.length = c.current.upvalues.length :=
    List.length_map _
  rw [hupvalues]
  exact h.current.code instr hinstr

/-- A function that is complete, back in the function around. -/
theorem Sound.exited {c : Compiler} (h : c.Sound 0) {s : FunctionScope}
    {rest : List FunctionScope} (henclosing : c.enclosing = s :: rest) :
    Sound 0 { c with
      current := s, enclosing := rest, prototypes := c.prototypes ++ [c.current.finish] } := by
  have hscopes : c.scopes = c.current :: s :: rest := by rw [scopes, henclosing]
  have hvalid := h.valid
  obtain ⟨hwired, hnodup, hpools, -⟩ := hvalid
  rw [hscopes] at hwired hnodup hpools
  have hgrown : c.prototypes <+: c.prototypes ++ [c.current.finish] := List.prefix_append ..
  have hlaid := h.enclosing
  rw [henclosing] at hlaid
  have hlaid' := FunctionScope.Laid.forall_captures (captures_refl _) hgrown hlaid
  rw [List.forall_mem_cons] at hlaid'
  refine ⟨⟨hwired.1, (List.forall_mem_cons.mp hnodup).2, (List.forall_mem_cons.mp hpools).2,
    by simp⟩, hlaid'.1, hlaid'.2, fun proto hmem => ?_, h.points⟩
  rcases List.mem_append.mp hmem with hmem | hmem
  · exact (h.prototypes proto hmem).mono (.of_grown hgrown)
  · rw [List.mem_singleton.mp hmem]
    exact h.finish.mono (.of_grown hgrown)

theorem keepsClosure_compileFunctionBody {extraParams : List Bytes} {params : List (Bytes × Span)}
    (hextra : extraParams.length ≤ 1) (hparams : params.length ≤ 200) (hm : KeepsRange m) :
    KeepsClosure (compileFunctionBody extraParams params m line) := by
  intro c c' idx hsound _ hrun
  have hcount : extraParams.length + params.length =
      (extraParams ++ params.map (·.1)).length := by simp
  rw [compileFunctionBody, hcount, Exec.run_bind] at hrun
  set names := extraParams ++ params.map (·.1)
  have hnames : names.length ≤ 201 := by omega
  have henter : (enterFunction (.ofNat names.length)).run c =
      (.ok (), c.entered (.ofNat names.length)) := rfl
  rw [henter] at hrun
  dsimp only at hrun
  obtain ⟨_, c₁, hrun₁, hrun⟩ := Exec.run_bind_eq_ok.mp hrun
  obtain ⟨vs, rfl, hvs⟩ := run_registerParams [] rfl
    (show (0 : UInt8).toNat + names.length < 256 by simp; omega) rfl hrun₁
  have hentered := hsound.entered hnames vs (by simpa using hvs)
  obtain ⟨_, c₂, hrun₂, hrun⟩ := Exec.run_bind_eq_ok.mp hrun
  obtain ⟨hsound₂, hwidened₂, -⟩ := hm _ c₂ _ hentered (List.forall_mem_nil _) hrun₂
  obtain ⟨scope, mid, hscope, hrun⟩ := Exec.run_bind_eq_ok.mp hrun
  cases hscope
  rw [unless_then] at hrun
  obtain ⟨_, c₃, hrun₃, hrun⟩ := Exec.run_bind_eq_ok.mp hrun
  have hret : KeepsRange (if endsInRet c₂.current.proto.code then pure ()
      else emitAll line [.ret 0]) := by
    split_ifs
    · exact .pure ()
    · exact keeps_plain rfl
  obtain ⟨hsound₃, hwidened₃, -⟩ := hret c₂ c₃ () hsound₂ (List.forall_mem_nil _) hrun₃
  have hwidened := hwidened₂.trans hwidened₃
  obtain ⟨s, rest, hcurrent, hrest, henclosing⟩ := List.forall₂_cons_left_iff.mp hwidened.enclosing
  obtain ⟨proto, c₄, hrun₄, hrun⟩ := Exec.run_bind_eq_ok.mp hrun
  rw [run_exitFunction henclosing] at hrun₄
  cases hrun₄
  obtain ⟨n, c₅, hrun₅, hpure⟩ := Exec.run_bind_eq_ok.mp hrun
  obtain ⟨rfl, hlt, rfl⟩ := run_pushProto_eq_ok hrun₅
  cases hpure
  have hsound' := hsound₃.exited henclosing
  have hwired := hsound₃.valid.wired.2
  rw [henclosing] at hwired
  obtain ⟨more, rfl⟩ := hcurrent
  refine ⟨hsound', ⟨le_rfl, by simp, List.prefix_rfl,
    hwidened.prototypes.trans (List.prefix_append ..), hrest⟩, List.forall_mem_singleton.mpr ?_⟩
  refine ⟨c₃.current.finish, ?_, fun desc hdesc => ?_⟩
  · rw [UInt16.toNat_ofNat_of_lt' (hlt.trans (by decide)), List.getElem?_concat_length]
  · obtain ⟨u, hu, rfl⟩ := List.mem_map.mp hdesc
    exact (hwired u hu).inRange hsound'.current

end Functions

end Compiler

end Proveno
