import Proveno.Compiler.Functions

/-! The instructions of declarations and of assignments carry out their symbolic code. -/

namespace Proveno

open List (Forall₂)

namespace Compiler

variable {c c' c'' : Compiler} {code : List Asm} {line : UInt32}

variable (line) in
theorem does_declareLocal (name : Bytes) (hidden : Bool) :
    Does (declareLocal name line hidden) (Gen.declare name hidden) := by
  intro c c' slot hvalid hrun
  rw [declareLocal, Exec.run_bind, currentScope] at hrun
  dsimp only at hrun
  by_cases hfull : c.current.nextSlot ≥ 200
  · rw [if_pos hfull] at hrun
    cases hrun
  · rw [if_neg hfull] at hrun
    obtain ⟨next, mid, hadd, hdeclare⟩ := Exec.run_bind_eq_ok.mp hrun
    obtain ⟨rfl, rfl⟩ := run_addU8_eq_ok hadd
    obtain ⟨s, mid', hpush, hset⟩ := Exec.run_bind_eq_ok.mp hdeclare
    unfold FunctionScope.pushLocal FunctionScope.reserve at hpush
    dsimp only at hpush
    cases hblocks : mid.current.blocks with
    | nil =>
      rw [hblocks] at hpush
      cases hpush
    | cons block rest =>
      rw [hblocks] at hpush
      cases hpush
      cases hset
      refine ⟨rfl, .of_grown (.of_quiet hvalid rfl rfl) rfl List.not_mem_nil, ?_⟩
      change _ = Env.mk (mid.current.locals.declare name hidden) _
      rw [Locals.declare, Locals.push, FunctionScope.locals, hblocks]
      rfl

theorem does_enterBlock : Does enterBlock Gen.enterBlock := by
  intro c c' _ hvalid hrun
  cases hrun
  exact ⟨rfl, .of_grown (.of_quiet hvalid rfl rfl) rfl nofun, rfl⟩

theorem does_exitBlock : Does exitBlock Gen.exitBlock := by
  intro c c' _ hvalid hrun
  cases hrun
  have hpop : c.current.popBlock.proto = c.current.proto ∧
      c.current.popBlock.upvalues = c.current.upvalues ∧
      c.current.popBlock.breakPatches = c.current.breakPatches ∧
      c.current.popBlock.locals = c.current.locals.pop := by
    unfold FunctionScope.popBlock FunctionScope.locals Locals.pop
    obtain ⟨proto, blocks, upvalues, nextSlot, maxLocals, breakPatches⟩ := c.current
    cases blocks <;> exact ⟨rfl, rfl, rfl, rfl⟩
  obtain ⟨hproto, hup, hbreaks, hlocals⟩ := hpop
  exact ⟨rfl, .of_grown (.of_quiet hvalid hproto hup) hbreaks nofun, congrArg₂ Env.mk hlocals rfl⟩

/-- What emits nothing, after what is emitted. -/
theorem Does.emits {m : Codegen Unit} {f : Gen Unit} (hm : Does m f) :
    Emits m (f >>= fun _ => pure []) := by
  intro c c' hvalid hrun
  obtain ⟨-, h, henv⟩ := hm c c' () hvalid hrun
  refine ⟨?_, henv⟩
  rw [show captured ((f >>= fun _ => pure []) c.env).1 = ∅ from captured_nil]
  exact h

section Parts

variable {m k : Codegen Unit} {g h : Gen (List Asm)} {ms : List (Codegen Unit)}
  {gs : List (Gen (List Asm))}

variable (line) in
theorem emits_storeNew (line' : UInt32) (name : Bytes) (hidden : Bool) :
    Emits (do
      let slot ← declareLocal name line hidden
      emitAll line' [.storeLocal slot]) (Gen.storeNew name hidden) :=
  Emits.bind (does_declareLocal line name hidden) fun slot => emits_plain line' [.storeLocal slot]

variable (line) in
theorem emits_compileLocals (names : List (Bytes × Span)) (h : Forall₂ Emits ms gs) :
    Emits (compileLocals line names ms) (Gen.locals names gs) := by
  induction names generalizing ms gs with
  | nil => exact .pure
  | cons a names ih =>
    have hrest : Forall₂ Emits ms.tail gs.tail := by
      cases h with
      | nil => exact .nil
      | cons _ h => exact h
    have hfirst : Emits (compileFirst ms line) (Gen.first (gs.take 1)) := by
      cases h with
      | nil => exact emits_plain line [.pushNil]
      | cons hm _ => exact hm
    have hstore := emits_storeNew a.2.line line a.1 false
    have hseq := hfirst.seq (hstore.seq (ih hrest))
    simp only [Exec.bind_assoc] at hseq
    rw [← Gen.seq_assoc] at hseq
    have hrun : compileLocals line (a :: names) ms = compileFirst ms line >>= fun _ =>
        declareLocal a.1 a.2.line false >>= fun slot =>
          emitAll line [.storeLocal slot] >>= fun _ => compileLocals line names ms.tail := by
      cases ms <;> rfl
    rw [hrun]
    exact hseq

theorem emits_compilePcallLocals {a b : Bytes × Span} {names : List (Bytes × Span)}
    {callLine : UInt32} (h : Forall₂ Emits ms gs) :
    Emits (compilePcallLocals a b names ms callLine line) (Gen.pcallLocals a b names gs) := by
  have hstore (slotA slotB : UInt8) :=
    (emits_plain line [.storeLocal slotB, .storeLocal slotA]).seq
      (emits_compileLocals line names .nil)
  have hdeclare := Emits.bind (does_declareLocal a.2.line a.1 false) fun slotA =>
    Emits.bind (does_declareLocal b.2.line b.1 false) fun slotB => hstore slotA slotB
  have hseq := (emits_compilePcallTwoValues callLine h).seq hdeclare
  have hgen : Gen.pcallLocals a b names gs = Gen.seq (Gen.pcallTwoValues gs)
      (Gen.declare a.1 false >>= fun slotA => Gen.declare b.1 false >>= fun slotB =>
        Gen.seq (pure ([.storeLocal slotB, .storeLocal slotA].map .plain)) (Gen.locals names [])) := by
    funext env
    refine Prod.ext ?_ rfl
    change (_ ++ _ ++ _ : List Asm) = _
    rw [List.append_assoc]
    rfl
  rw [hgen]
  exact hseq

/-- What is made of an expression is compiled, and so are its parts. -/
structure EmitsParts (m : Compiled) (g : Parts (Gen (List Asm))) : Prop where
  whole : Emits m.whole g.whole
  parts : Forall₂ Emits m.parts g.parts
  args : Forall₂ Emits m.args g.args

theorem EmitsParts.single (hm : Emits m g) : EmitsParts (.single m) (.single g) :=
  ⟨hm, .cons hm .nil, .nil⟩

theorem forall₂_whole {ms : List Compiled} {gs : List (Parts (Gen (List Asm)))}
    (h : Forall₂ EmitsParts ms gs) : Forall₂ Emits (ms.map (·.whole)) (gs.map (·.whole)) := by
  rw [List.forall₂_map_left_iff, List.forall₂_map_right_iff]
  exact h.imp fun _ _ h => h.whole

theorem emits_compileLocalDecl {names : List (Bytes × Span)} {values : List Expr}
    {ms : List Compiled} {gs : List (Parts (Gen (List Asm)))} (h : Forall₂ EmitsParts ms gs) :
    Emits (compileLocalDecl names values ms line) (Gen.localDecl names values gs) := by
  have hlocals := emits_compileLocals line names (forall₂_whole h)
  unfold compileLocalDecl Gen.localDecl
  split
  · rename_i a b rest name _ _ whole parts args
    rcases h with - | ⟨hm, - | -⟩
    dsimp only
    split_ifs
    · exact emits_compilePcallLocals hm.args
    · exact hlocals
  · rename_i hother
    split
    · rename_i a b rest name _ _ whole parts args
      rcases h with - | ⟨hm, - | -⟩
      exact (hother _ _ _ _ _ _ _ _ _ _ rfl rfl rfl).elim
    · exact hlocals

theorem Emits.fail_bind {α : Type} {e : CompileError} {k : α → Codegen Unit} :
    Emits (Compiler.fail e >>= k) g := by
  intro c c' _ hrun
  cases hrun

theorem Emits.then_fail {e : CompileError} : Emits (m >>= fun _ => Compiler.fail e) g := by
  intro c c' _ hrun
  obtain ⟨_, mid, -, hfail⟩ := Exec.run_bind_eq_ok.mp hrun
  cases hfail

theorem emits_compileAssignName {name : Bytes} {span : Span} (hm : Emits m g) :
    Emits (compileAssignName name span m line) (Gen.assignName name g) := by
  refine emits_resolved (n := g >>= pure)
    (s := fun x => g >>= fun value => pure (value ++ [Asm.store x]))
    ?_ (fun x var => ?_) (fun x env => ?_) .then_fail
  · unfold Gen.assignName
    refine congrArg _ (funext fun env => ?_)
    cases env.resolve name <;> rfl
  · exact hm.when.seq (Known.stable x var) emitsWhen_store
  · change _ ⊆ captured (_ ++ [Asm.store x])
    rw [captured_append, captured_store]
    exact Set.subset_union_right

theorem emits_compileAssignIndex {key : Expr} {mTable mKey : Codegen Unit}
    {gTable gKey : Gen (List Asm)} (hTable : Emits mTable gTable) (hKey : Emits mKey gKey)
    (hm : Emits m g) :
    Emits (compileAssignIndex mTable key mKey m line) (Gen.assignIndex gTable key gKey g) := by
  have hexplicit := hTable.seq (hKey.seq (hm.seq (emits_plain line [.setTable])))
  rw [← Gen.seq_assoc, ← Gen.seq_assoc] at hexplicit
  cases key with
  | stringLit bytes _ =>
    have hset := emits_around_constant [.setField bytes] (.string bytes) line line
      (fun idx => [.setField idx]) hm ⟨rfl, by simp⟩
      fun _ _ _ idx hat => ⟨⟨idx, hat, rfl⟩, trivial⟩
    have hseq := hTable.seq hset
    rw [← Gen.seq_assoc] at hseq
    exact hseq
  | _ => exact hexplicit

variable (line) in
theorem emits_emitFields (parts : List Bytes) :
    Emits (emitFields line parts) (pure (parts.map .getField)) := by
  induction parts with
  | nil => exact .pure
  | cons part rest ih =>
    have hget : Emits (addStringConstant part line >>= fun idx => emitAll line [.getField idx])
        (pure [.getField part]) :=
      emits_constant ⟨rfl, by simp⟩ fun _ _ _ idx hat => ⟨⟨idx, hat, rfl⟩, trivial⟩
    have hseq := hget.seq ih
    rw [Exec.bind_assoc] at hseq
    exact hseq

theorem emits_storeField {base part : Bytes} {rest : List Bytes} :
    Emits (storeFuncName (base :: part :: rest) line)
      (Gen.storeFuncName (base :: part :: rest)) := by
  have hset : Emits (addStringConstant ((part :: rest).getLast (List.cons_ne_nil _ _)) line >>= fun idx =>
      emitAll line [.setField idx]) (pure [.setField ((part :: rest).getLast (List.cons_ne_nil _ _))]) :=
    emits_constant ⟨rfl, by simp⟩ fun _ _ _ idx hat => ⟨⟨idx, hat, rfl⟩, trivial⟩
  have hfields := emits_emitFields line (part :: rest).dropLast
  refine emits_resolve (h := fun o => Gen.allocTemp >>= fun tmp => Gen.freeTemp >>= fun _ =>
    pure ((Gen.baseOf o ++ (part :: rest).dropLast.map Asm.getField) ++
      [Asm.plain (.storeLocal tmp)] ++
      (Gen.baseOf o ++ (part :: rest).dropLast.map Asm.getField) ++
        [Asm.plain (.loadLocal tmp), .setField ((part :: rest).getLast (List.cons_ne_nil _ _))]))
    (fun x var => ?_) (fun x env => ?_) ?_
  · have hstable := Known.stable x var
    have hbase : EmitsWhen (Known x var) (emitBase base var line) (pure [.load x]) := emitsWhen_load
    have hstore (tmp : UInt8) :=
      ((emits_plain line [.storeLocal tmp]).when (P := Known x var)).seq hstable
        (hbase.seq hstable (((hfields.seq ((emits_plain line [.loadLocal tmp]).seq
          (emits_freeTempSlot.seq hset))).when)))
    have hrun := hbase.seq hstable (hfields.when.seq hstable
      (EmitsWhen.bind hstable does_allocTempSlot hstore))
    have hgen : Gen.seq (pure [.load x]) (Gen.seq (pure ((part :: rest).dropLast.map .getField))
        (Gen.allocTemp >>= fun tmp => Gen.seq (pure ([.storeLocal tmp].map .plain))
          (Gen.seq (pure [.load x]) (Gen.seq (pure ((part :: rest).dropLast.map .getField))
            (Gen.seq (pure ([.loadLocal tmp].map .plain))
              (Gen.seq (Gen.freeTemp >>= fun _ => pure [])
                (pure [.setField ((part :: rest).getLast (List.cons_ne_nil _ _))]))))))) =
        (Gen.allocTemp >>= fun tmp => Gen.freeTemp >>= fun _ =>
          pure ((Gen.baseOf (some x) ++ (part :: rest).dropLast.map Asm.getField) ++
            [Asm.plain (.storeLocal tmp)] ++
            (Gen.baseOf (some x) ++ (part :: rest).dropLast.map Asm.getField) ++
            [Asm.plain (.loadLocal tmp),
              .setField ((part :: rest).getLast (List.cons_ne_nil _ _))])) := by
      funext env
      refine Prod.ext ?_ rfl
      change _ = (_ ++ _ ++ _ ++ _ : List Asm)
      simp only [List.append_assoc]
      rfl
    rw [hgen] at hrun
    exact hrun
  · intro p hp
    change p ∈ captures (_ : List Asm)
    have hfront : ∀ rest : List Asm, p ∈ captures ([Asm.load x] ++ rest) := fun rest => by
      rw [captures_append]
      exact List.mem_append_left _ hp
    exact hfront _
  · exact .fail_bind

variable (line) in
theorem emits_storeFuncName (parts : List Bytes) :
    Emits (storeFuncName parts line) (Gen.storeFuncName parts) := by
  rcases parts with - | ⟨name, - | ⟨part, rest⟩⟩
  · exact .panic
  · refine emits_resolved (s := fun x => pure [.store x]) ?_ (fun x var => emitsWhen_store)
      (fun x env => subset_rfl) (emits_storeNew line line name false)
    rw [Gen.storeFuncName]
    refine congrArg _ (funext fun env => ?_)
    cases env.resolve name <;> rfl
  · exact emits_storeField

theorem emits_compileFunctionDecl {parts : List (Bytes × Span)} {method : Option (Bytes × Span)}
    {mBody : List Bytes → Codegen UInt16} {gBody : List Bytes → Gen Asm}
    (hbody : ∀ extra, EmitsClosure (mBody extra) (gBody extra)) :
    Emits (compileFunctionDecl parts method mBody line) (Gen.functionDecl parts method gBody) := by
  have hseq := (emits_closure line (hbody (if method.isSome then [ascii "self"] else []))).seq
    (emits_storeFuncName line (parts.map (·.1) ++ (method.map (·.1)).toList))
  rw [Exec.bind_assoc] at hseq
  exact hseq

theorem emits_compileLocalFunctionDecl {name : Bytes} {nameSpan : Span} {mBody : Codegen UInt16}
    {gBody : Gen Asm} (hbody : EmitsClosure mBody gBody) :
    Emits (compileLocalFunctionDecl name nameSpan mBody line) (Gen.localFunctionDecl name gBody) := by
  have hstore (slot : UInt8) := (emits_plain line [.pushNil, .storeLocal slot]).seq
    ((emits_closure line hbody).seq (emits_plain line [.storeLocal slot]))
  have hrun := Emits.bind (does_declareLocal nameSpan.line name false) hstore
  simp only [Exec.bind_assoc] at hrun
  exact hrun

theorem emits_compileExprStmt {expr : Expr} (hm : Emits m g) :
    Emits (compileExprStmt expr m line) (Gen.exprStmt g) := by
  cases expr with
  | call | methodCall => exact hm.seq (emits_plain line [.pop])
  | _ => exact .fail

theorem emits_compileReturn {value : Option (Codegen Unit)} {gValue : Option (Gen (List Asm))}
    (h : Option.Rel Emits value gValue) : Emits (compileReturn value line) (Gen.ret gValue) := by
  cases h with
  | none => exact emits_plain line [.ret 0]
  | some hm => exact hm.seq (emits_plain line [.ret 1])

theorem emits_compileBlockWith (hm : Emits m g) (hk : Emits k h) :
    Emits (compileBlockWith m k) (Gen.block g h) := by
  have hrun := Emits.bind does_enterBlock fun _ => hm.seq (hk.seq does_exitBlock.emits)
  have hgen : Gen.block g h = Gen.enterBlock >>= fun _ =>
      Gen.seq g (Gen.seq h (Gen.exitBlock >>= fun _ => pure [])) := by
    funext env
    refine Prod.ext ?_ rfl
    change (_ ++ _ : List Asm) = _ ++ (_ ++ [])
    rw [List.append_nil]
  rw [hgen]
  exact hrun

end Parts

end Compiler

end Proveno
