import Proveno.Compiler.Refinement

/-! The instructions of expressions and of calls carry out their symbolic code. -/

namespace Proveno

open List (Forall₂)

namespace Gen

theorem seq_assoc (f g h : Gen (List Asm)) : seq (seq f g) h = seq f (seq g h) := by
  funext env
  exact Prod.ext (List.append_assoc ..) rfl

theorem seq_bind {α : Type} (f : Gen α) (g : α → Gen (List Asm)) (h : Gen (List Asm)) :
    seq (f >>= g) h = f >>= fun a => seq (g a) h := rfl

end Gen

namespace Compiler

theorem run_addU8_eq_ok {a b sum : UInt8} {c c' : Compiler}
    (hrun : (addU8 a b).run c = (.ok sum, c')) : sum = a + b ∧ c' = c := by
  have h : (addU8 a b).run c =
      if c.overflowChecks ∧ 256 ≤ a.toNat + b.toNat then (.error .panicked, c)
      else (.ok (a + b), c) := rfl
  rw [h] at hrun
  split_ifs at hrun
  · cases hrun
  · cases hrun
    exact ⟨rfl, rfl⟩

theorem does_allocTempSlot : Does allocTempSlot Gen.allocTemp := by
  intro c c' slot hvalid hrun
  rw [allocTempSlot, Exec.run_bind, currentScope] at hrun
  obtain ⟨next, mid, hadd, hrun⟩ := Exec.run_bind_eq_ok.mp hrun
  obtain ⟨rfl, rfl⟩ := run_addU8_eq_ok hadd
  cases hrun
  exact ⟨rfl, .of_grown (.of_quiet hvalid rfl rfl) rfl List.not_mem_nil, rfl⟩

theorem emits_freeTempSlot : Emits freeTempSlot (Gen.freeTemp >>= fun _ => pure []) := by
  intro c c' hvalid hrun
  cases hrun
  refine ⟨?_, rfl⟩
  rw [show captured ((Gen.freeTemp >>= fun _ => pure []) c.env).1 = ∅ from captured_nil]
  exact .of_grown (.of_quiet hvalid rfl rfl) rfl nofun

section Parts

variable {m k : Codegen Unit} {g h : Gen (List Asm)} {ms : List (Codegen Unit)}
  {gs : List (Gen (List Asm))} {line : UInt32}

theorem emits_inOrder (h : Forall₂ Emits ms gs) : Emits (inOrder ms) (Gen.inOrder gs) := by
  induction h with
  | nil => exact .pure
  | cons hm _ ih => exact hm.seq ih

variable (line) in
theorem emits_compileConstant (k : Constant) :
    Emits (compileConstant k line) (pure [.constant k]) :=
  emits_constant (closed_constant k) (assembled_constant k)

theorem emits_compileField {table : Expr} {name : Bytes} (hm : Emits m g) :
    Emits (compileField table m name line) (Gen.field g name) := by
  unfold compileField
  split_ifs
  · exact .fail
  · have hget : Emits (addStringConstant name line >>= fun idx => emitAll line [.getField idx])
        (pure [.getField name]) :=
      emits_constant ⟨rfl, by simp⟩ fun _ _ _ idx hat => ⟨⟨idx, hat, rfl⟩, trivial⟩
    exact hm.seq hget

theorem emits_compileIndex (hm : Emits m g) (hk : Emits k h) :
    Emits (compileIndex m k line) (Gen.index g h) := by
  have hseq := hm.seq (hk.seq (emits_plain line [.getTable]))
  rw [← Gen.seq_assoc] at hseq
  exact hseq

theorem emits_compileNamedKey {name : Bytes} (hm : Emits m g) :
    Emits (compileNamedKey name m line) (Gen.namedKey name g) := by
  have hset := emits_around_constant [.setField name] (.string name) line line
    (fun idx => [.setField idx]) hm ⟨rfl, by simp⟩
    fun _ _ _ idx hat => ⟨⟨idx, hat, rfl⟩, trivial⟩
  have hseq := (emits_plain line [.dup]).seq hset
  rw [← Gen.seq_assoc] at hseq
  exact hseq

theorem emits_compileExplicitKey (hm : Emits m g) (hk : Emits k h) :
    Emits (compileExplicitKey m k line) (Gen.explicitKey g h) := by
  have hseq := (emits_plain line [.dup]).seq (hm.seq (hk.seq (emits_plain line [.setTable])))
  rw [← Gen.seq_assoc, ← Gen.seq_assoc] at hseq
  exact hseq

theorem emits_compilePositional {autoIdx : Int64} (hm : Emits m g) :
    Emits (compilePositional autoIdx m line) (Gen.positional autoIdx g) := by
  have hseq := (emits_plain line [.dup]).seq
    ((emits_compileConstant line (.integer autoIdx)).seq
      (hm.seq (emits_plain line [.setTable])))
  rw [compileConstant, Exec.bind_assoc, ← Gen.seq_assoc, ← Gen.seq_assoc] at hseq
  exact hseq

theorem emits_compileStrict {instr : Instruction} (hm : Emits m g) (hk : Emits k h) :
    Emits (compileStrict instr m k line) (Gen.strict instr g h) := by
  have hseq := hm.seq (hk.seq (emits_plain line [instr]))
  rw [← Gen.seq_assoc] at hseq
  exact hseq

theorem emits_compileConcatExpr (h : Forall₂ Emits ms gs) :
    Emits (compileConcatExpr ms line) (Gen.concatExpr gs) := by
  have hconcat : Emits (emitAll line [.concat (.ofNat ms.length)]) (pure [.concat gs.length]) :=
    emits_code ⟨rfl, by simp⟩ fun _ _ _ => ⟨by rw [h.length_eq]; rfl, trivial⟩
  exact (emits_inOrder h).seq hconcat

theorem emits_compileUnOp {op : UnOpKind} (hm : Emits m g) :
    Emits (compileUnOp op m line) (Gen.unOp op g) :=
  hm.seq (emits_plain line [op.instruction])

theorem emits_compileToolCall (h : Forall₂ Emits ms gs) :
    Emits (compileToolCall ms line) (Gen.toolCall gs) := by
  unfold compileToolCall
  split
  · cases h with
    | cons hm h =>
      cases h with
      | cons hk h =>
        cases h with
        | nil =>
          have hseq := hm.seq (hk.seq (Emits.pure.seq (emits_plain line [.toolCall])))
          rw [← Gen.seq_assoc, ← Gen.seq_assoc, Gen.seq_assoc _ _ (pure [])] at hseq
          exact hseq
  · exact .fail

theorem emits_compileFirst (h : Forall₂ Emits ms gs) :
    Emits (compileFirst ms line) (Gen.first gs) := by
  cases h with
  | nil => exact emits_plain line [.pushNil]
  | cons hm _ => exact hm

variable (line) in
theorem emits_compilePcallTwoValues (h : Forall₂ Emits ms gs) :
    Emits (compilePcallTwoValues ms line) (Gen.pcallTwoValues gs) := by
  cases h with
  | nil => exact emits_code ⟨rfl, by simp⟩ fun _ _ _ => ⟨rfl, rfl, trivial⟩
  | @cons _ _ ms gs hm h =>
    have hcall : Emits (emitAll line [.pcall (.ofNat ms.length)]) (pure [.pcall gs.length]) :=
      emits_code ⟨rfl, by simp⟩ fun _ _ _ => ⟨by rw [h.length_eq]; rfl, trivial⟩
    have hseq := hm.seq ((emits_inOrder h).seq hcall)
    rw [← Gen.seq_assoc] at hseq
    exact hseq

theorem emits_compilePcall (h : Forall₂ Emits ms gs) :
    Emits (compilePcall ms line) (Gen.pcall gs) :=
  (emits_compilePcallTwoValues line h).seq (emits_plain line [.pop])

theorem emits_compileError (h : Forall₂ Emits ms gs) :
    Emits (compileError ms line) (Gen.error gs) :=
  (emits_compileFirst h).seq (emits_plain line [.error])

theorem emits_compileLog (h : Forall₂ Emits ms gs) :
    Emits (compileLog ms line) (Gen.log gs) :=
  (emits_compileFirst h).seq (emits_plain line [.log, .pushNil])

theorem emits_compileNormalCall (hm : Emits m g) (h : Forall₂ Emits ms gs) :
    Emits (compileNormalCall m ms line) (Gen.normalCall g gs) := by
  have hcall : Emits (emitAll line [.call (.ofNat ms.length)]) (pure [.call gs.length]) :=
    emits_code ⟨rfl, by simp⟩ fun _ _ _ => ⟨by rw [h.length_eq]; rfl, trivial⟩
  have hseq := hm.seq ((emits_inOrder h).seq hcall)
  rw [← Gen.seq_assoc] at hseq
  exact hseq

theorem emits_compileCall (func : Expr) (hm : Emits m g) (h : Forall₂ Emits ms gs) :
    Emits (compileCall func m ms line) (Gen.call func g gs) := by
  unfold compileCall Gen.call
  split_ifs
  · exact emits_compileToolCall h
  · cases func with
    | name name span =>
      dsimp only
      split_ifs
      · exact .fail
      · exact .fail
      · exact .fail
      · exact .fail
      · exact emits_compilePcall h
      · exact emits_compileError h
      · exact emits_compileLog h
      · exact emits_compileNormalCall hm h
    | _ => exact emits_compileNormalCall hm h

variable (line) in
theorem emits_call_one (argc : Nat) :
    Emits (do
      let argc ← addU8 1 (.ofNat argc)
      emitAll line [.call argc]) (pure [.call (1 + argc)]) := by
  intro c c' hvalid hrun
  obtain ⟨sum, mid, hadd, hemit⟩ := Exec.run_bind_eq_ok.mp hrun
  obtain ⟨rfl, rfl⟩ := run_addU8_eq_ok hadd
  have hcode : Emits (emitAll line [.call (1 + .ofNat argc)]) (pure [.call (1 + argc)]) :=
    emits_code ⟨rfl, by simp⟩ fun _ _ _ => ⟨by rw [Asm.Assembled, UInt8.ofNat_add]; rfl, trivial⟩
  exact hcode _ c' hvalid hemit

theorem emits_compileMethodCall {method : Bytes} (hm : Emits m g) (h : Forall₂ Emits ms gs) :
    Emits (compileMethodCall m method ms line) (Gen.methodCall g method gs) := by
  have hargs := emits_freeTempSlot.seq ((emits_inOrder h).seq (emits_call_one line
    ms.length))
  have hget (tmp : UInt8) : Emits (addStringConstant method line >>= fun idx =>
      emitAll line [.getField idx, .loadLocal tmp])
      (pure [.getField method, .plain (.loadLocal tmp)]) :=
    emits_constant ⟨rfl, by simp⟩ fun _ _ _ idx hat => ⟨⟨idx, hat, rfl⟩, rfl, trivial⟩
  have hbody (tmp : UInt8) := (emits_plain line [.dup, .storeLocal tmp]).seq ((hget tmp).seq hargs)
  have hseq := hm.seq (Emits.bind does_allocTempSlot hbody)
  simp only [Exec.bind_assoc] at hseq
  have hgen : Gen.methodCall g method gs = Gen.seq g (Gen.allocTemp >>= fun tmp =>
      Gen.seq (pure ([.dup, .storeLocal tmp].map .plain))
        (Gen.seq (pure [.getField method, .plain (.loadLocal tmp)])
          (Gen.seq (Gen.freeTemp >>= fun _ => pure [])
            (Gen.seq (Gen.inOrder gs) (pure [.call (1 + ms.length)]))))) := by
    funext env
    refine Prod.ext ?_ rfl
    change (_ ++ _ ++ _ ++ _ : List Asm) = _
    rw [h.length_eq]
    simp only [List.append_assoc]
    rfl
  rw [hgen]
  exact hseq

end Parts

end Compiler

end Proveno
