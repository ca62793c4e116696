import Proveno.Compiler.Statements

/-! The instructions of conditionals and of loops carry out their symbolic code: the jumps
out of a loop are given their distances at its end. -/

namespace Proveno

open List (Forall₂)

namespace Gen

@[simp] theorem closeLoop_nil (n : Int) : closeLoop n [] = [] := rfl

@[simp] theorem closeLoop_breakOut (n : Int) (code : List Asm) :
    closeLoop n (.breakOut :: code) = .jump .jmp (n - 1) :: closeLoop (n - 1) code := rfl

theorem closeLoop_of_ne {asm : Asm} (h : asm ≠ .breakOut) (n : Int) (code : List Asm) :
    closeLoop n (asm :: code) = asm :: closeLoop (n - 1) code := by
  cases asm <;> first | rfl | exact absurd rfl h

theorem closeLoop_append (n : Int) (code rest : List Asm) :
    closeLoop n (code ++ rest) = closeLoop n code ++ closeLoop (n - code.length) rest := by
  induction code generalizing n with
  | nil => simp
  | cons asm code ih =>
    have hn : n - 1 - (code.length : Int) = n - (code.length + 1 : Nat) := by omega
    cases asm <;> simp [closeLoop_of_ne, ih, hn]

theorem length_closeLoop (n : Int) (code : List Asm) : (closeLoop n code).length = code.length := by
  induction code generalizing n with
  | nil => rfl
  | cons asm code ih => cases asm <;> simp [closeLoop_of_ne, ih]

theorem captures_closeLoop (n : Int) (code : List Asm) :
    captures (closeLoop n code) = captures code := by
  induction code generalizing n with
  | nil => rfl
  | cons asm code ih =>
    cases asm <;> simp [closeLoop_of_ne, captures, ih, Asm.captures]

theorem breakOut_not_mem_closeLoop (n : Int) (code : List Asm) : .breakOut ∉ closeLoop n code := by
  induction code generalizing n with
  | nil => exact List.not_mem_nil
  | cons asm code ih => cases asm <;> simp [closeLoop_of_ne, ih]

/-- A loop is closed as a whole, with the jump back at its end. -/
theorem closedLoop_eq (body : List Asm) (back : Nat) (d : Int) (hd : d = -(back : Int) - 1) :
    closedLoop body back =
      closeLoop (body ++ [Asm.jump .jmp d]).length (body ++ [.jump .jmp d]) := by
  rw [closedLoop, closeLoop_append, List.length_append, hd]
  rfl

end Gen

namespace Compiler

variable {c c' c'' : Compiler} {code front : List Asm} {line : UInt32} {A : Set (Bytes × Nat)}

theorem emits_compileBreak : Emits (compileBreak line) Gen.breakStmt := by
  intro c c' hvalid hrun
  rw [compileBreak, Exec.run_bind, currentScope] at hrun
  dsimp only at hrun
  cases hpatches : c.current.breakPatches with
  | nil =>
    rw [hpatches] at hrun
    cases hrun
  | cons loop rest =>
    obtain ⟨pops, patches⟩ := loop
    rw [hpatches] at hrun
    obtain ⟨_, c₁, hrun₁, hrun⟩ := Exec.run_bind_eq_ok.mp hrun
    have hasm : c.Assembles ((List.replicate pops .pop).map .plain) (List.replicate pops .pop) :=
      assembled_plain _ _ _ _
    obtain ⟨h₁, henv₁⟩ := emission_emitAll hvalid hasm (by simp) hrun₁
    have hbreaks : c₁.current.breakPatches = (pops, patches) :: rest := by
      rw [h₁.breaks, positions_of_not_mem (by simp), addBreaks_nil, hpatches]
    simp only [Exec.run_bind, emitPlaceholder, emit, hbreaks, setScope,
      Exec.run_modify, Prod.mk.injEq] at hrun
    obtain ⟨-, rfl⟩ := hrun
    have hjmp : Assembled c₁.prototypes c₁.current.proto.constants c₁.current.names [.breakOut]
        [.jmp 0] := ⟨rfl, trivial⟩
    have hgrown := h₁.toGrown.trans (.of_work h₁.valid (s := { c₁.current with
      proto := { c₁.current.proto with
        code := c₁.current.proto.code ++ [.jmp 0], lines := c₁.current.proto.lines ++ [line] }
      breakPatches := (pops, patches ++ [c₁.codeLen]) :: rest })
      (p := c₁.points ++ [c₁.current.point]) rfl List.prefix_rfl rfl h₁.valid.pool rfl hjmp)
    have hgen : Gen.breakStmt c.env =
        ((List.replicate pops Instruction.pop).map Asm.plain ++ [Asm.breakOut], c.env) := by
      change (List.replicate ((c.current.breakPatches.map (·.1)).headD 0) _ ++ _, _) = _
      rw [hpatches, List.map_replicate]
      rfl
    have hcaptured : captured ((List.replicate pops Instruction.pop).map Asm.plain ++
        [Asm.breakOut]) = ∅ ∪ ∅ := by
      rw [captured_append, captured_of_closed (closed_plain _),
        show captured [.breakOut] = ∅ from captured_nil]
    refine ⟨?_, ?_⟩
    · rw [hgen, hcaptured]
      refine ⟨hgrown, ?_, fun hnil => ?_⟩
      · rw [positions_append, positions_of_not_mem (by simp), hpatches, ← h₁.toGrown.codeLen]
        rfl
      · rw [hpatches] at hnil
        cases hnil
    · rw [hgen, ← henv₁]
      change Env.mk ⟨_, _, _⟩ _ = Env.mk ⟨_, _, c₁.current.breakPatches.map (·.1)⟩ _
      rw [hbreaks]
      rfl

/-- Jumps out of a loop are given their distances, one after the other. -/
theorem Grown.patchBreaks (h : c.Grown (front ++ code) A c')
    (hrun : (patchJumpsTo c'.codeLen (positions (c.codeLen + front.length) code)).run c' =
      (.ok (), c'')) :
    c.Grown (front ++ Gen.closeLoop code.length code) A c'' ∧
      ∃ code, c'' = { c' with current := { c'.current with
        proto := { c'.current.proto with code } } } := by
  induction code generalizing front c' with
  | nil =>
    cases hrun
    exact ⟨h, _, rfl⟩
  | cons asm code ih =>
    have hbase (x : Asm) : c.codeLen + front.length + 1 = c.codeLen + (front ++ [x]).length := by
      rw [List.length_append, List.length_singleton, Nat.add_assoc]
    have hlength : ((code.length + 1 : Nat) : Int) - 1 = code.length := by omega
    by_cases hasm : asm = .breakOut
    · subst hasm
      rw [positions, patchJumpsTo] at hrun
      obtain ⟨_, mid, hrun₁, hrun₂⟩ := Exec.run_bind_eq_ok.mp hrun
      obtain ⟨h₁, more, rfl⟩ := h.patch (.inl ⟨rfl, rfl⟩) hrun₁
      have hlen : Compiler.codeLen { c' with current := { c'.current with
          proto := { c'.current.proto with code := more } } } = c'.codeLen := by
        rw [h₁.codeLen, h.codeLen]
        simp
      have hdistance : (c'.codeLen : Int) - (c.codeLen + front.length : Nat) - 1 = code.length := by
        rw [h.codeLen, List.length_append, List.length_cons]
        omega
      rw [hdistance, List.append_cons] at h₁
      rw [hbase (.jump .jmp code.length), ← hlen] at hrun₂
      obtain ⟨h₂, more', rfl⟩ := ih h₁ hrun₂
      rw [List.length_cons, Gen.closeLoop_breakOut, hlength, List.append_cons]
      exact ⟨h₂, more', rfl⟩
    · have hpositions : positions (c.codeLen + front.length) (asm :: code) =
          positions (c.codeLen + front.length + 1) code := by
        cases asm <;> first | rfl | exact absurd rfl hasm
      rw [hpositions, hbase asm] at hrun
      rw [List.append_cons] at h
      rw [List.length_cons, Gen.closeLoop_of_ne hasm, hlength, List.append_cons]
      exact ih h hrun

theorem codeLen_patchJumpTo {idx target : Nat} (hrun : (patchJumpTo idx target).run c = (.ok (), c')) :
    c'.codeLen = c.codeLen := by
  rw [patchJumpTo, Exec.run_bind, currentScope] at hrun
  obtain ⟨instr, mid, hinstr, hset⟩ := Exec.run_bind_eq_ok.mp hrun
  cases hcode : c.current.proto.code[idx]?.bind
      (Instruction.withOffset (.ofInt ((target : Int) - idx - 1))) with
  | none =>
    rw [hcode] at hinstr
    cases hinstr
  | some instr' =>
    rw [hcode] at hinstr
    cases hinstr
    cases hset
    exact List.length_set ..

theorem patchJumps_eq_ok {idxs : List Nat} (hrun : (patchJumps idxs).run c = (.ok (), c')) :
    (patchJumpsTo c.codeLen idxs).run c = (.ok (), c') := by
  induction idxs generalizing c with
  | nil => exact hrun
  | cons idx idxs ih =>
    obtain ⟨_, mid, hrun₁, hrun₂⟩ := Exec.run_bind_eq_ok.mp hrun
    rw [run_patchJump] at hrun₁
    have hrest := ih hrun₂
    rw [codeLen_patchJumpTo hrun₁] at hrest
    exact Exec.run_bind_eq_ok.mpr ⟨_, mid, hrun₁, hrest⟩

/-- A loop that is entered, with so much to pop before a jump out of it. -/
def looped (pops : Nat) (c : Compiler) : Compiler :=
  { c with current := { c.current with breakPatches := (pops, []) :: c.current.breakPatches } }

theorem emission_loop {pops : Nat} (hvalid : c.Valid) (h : (c.looped pops).Emission code A c')
    (hrun : (popBreakScope >>= patchJumpsTo c'.codeLen).run c' = (.ok (), c'')) :
    c.Emission (Gen.closeLoop code.length code) A c'' ∧ c''.env = (Gen.exitLoop c'.env).2 := by
  have hbreaks : c'.current.breakPatches =
      (pops, [] ++ positions c.codeLen code) :: c.current.breakPatches := h.breaks
  obtain ⟨patches, mid, hpop, hpatch⟩ := Exec.run_bind_eq_ok.mp hrun
  have hrunPop : popBreakScope.run c' = (.ok (positions c.codeLen code),
      { c' with current := { c'.current with breakPatches := c.current.breakPatches } }) := by
    rw [popBreakScope]
    dsimp only
    rw [hbreaks]
    rfl
  rw [hrunPop] at hpop
  cases hpop
  have hentered : c.Grown [] ∅ (c.looped pops) := .of_quiet hvalid rfl rfl
  have hleft : c'.Grown [] ∅
      { c' with current := { c'.current with breakPatches := c.current.breakPatches } } :=
    .of_quiet h.valid rfl rfl
  have hbody := (hentered.trans h.toGrown).trans hleft
  rw [List.append_nil, Set.empty_union, Set.union_empty] at hbody
  obtain ⟨hgrown, more, rfl⟩ := Grown.patchBreaks (show c.Grown ([] ++ _) _ _ from hbody) hpatch
  refine ⟨.of_grown hgrown rfl (Gen.breakOut_not_mem_closeLoop _ _), ?_⟩
  change Env.mk ⟨_, _, _⟩ _ = Env.mk ⟨_, _, (c'.current.breakPatches.map (·.1)).tail⟩ _
  rw [hbreaks]
  rfl

/-- A loop is closed by the jump back and by the jumps out of it. -/
theorem emission_closedLoop_to {pops back : Nat} {d : Int} {body : List Asm} (hvalid : c.Valid)
    (h : (c.looped pops).Emission (body ++ [.jump .jmp d]) A c') (hd : d = -(back : Int) - 1)
    (hrun : (popBreakScope >>= patchJumpsTo c'.codeLen).run c' = (.ok (), c'')) :
    c.Emission (Gen.closedLoop body back) A c'' ∧ c''.env = (Gen.exitLoop c'.env).2 := by
  rw [Gen.closedLoop_eq body back d hd]
  exact emission_loop hvalid h hrun

theorem codeLen_popBreakScope {patches : List Nat} (hrun : popBreakScope.run c = (.ok patches, c')) :
    c'.codeLen = c.codeLen := by
  unfold popBreakScope at hrun
  dsimp only at hrun
  cases hpatches : c.current.breakPatches with
  | nil =>
    rw [hpatches] at hrun
    cases hrun
    rfl
  | cons loop rest =>
    rw [hpatches] at hrun
    cases hrun
    rfl

theorem emission_closedLoop {pops back : Nat} {d : Int} {body : List Asm} (hvalid : c.Valid)
    (h : (c.looped pops).Emission (body ++ [.jump .jmp d]) A c') (hd : d = -(back : Int) - 1)
    (hrun : (popBreakScope >>= patchJumps).run c' = (.ok (), c'')) :
    c.Emission (Gen.closedLoop body back) A c'' ∧ c''.env = (Gen.exitLoop c'.env).2 := by
  obtain ⟨patches, mid, hpop, hpatch⟩ := Exec.run_bind_eq_ok.mp hrun
  have hpatchTo := patchJumps_eq_ok hpatch
  rw [codeLen_popBreakScope hpop] at hpatchTo
  exact emission_closedLoop_to hvalid h hd (Exec.run_bind_eq_ok.mpr ⟨patches, mid, hpop, hpatchTo⟩)

theorem captured_jump (kind : JumpKind) (d : Int) : captured [.jump kind d] = ∅ := captured_nil

theorem captured_closedLoop (body : List Asm) (back : Nat) :
    captured (Gen.closedLoop body back) = captured body := by
  rw [Gen.closedLoop, captured_append, captured_jump, Set.union_empty]
  ext p
  simp [captured, Gen.captures_closeLoop]

theorem run_pushBreakScope (pops : Nat) (c : Compiler) :
    (pushBreakScope pops).run c = (.ok (), c.looped pops) := rfl

theorem Valid.looped (h : c.Valid) (pops : Nat) : (c.looped pops).Valid :=
  h.work rfl h.pool rfl rfl

theorem emission_emitBackJump {loopStart : Nat} (hvalid : c.Valid)
    (hrun : (emitBackJump loopStart line).run c = (.ok (), c')) :
    c.Emission [.jump .jmp ((loopStart : Int) - c.codeLen - 1)] ∅ c' ∧ c'.env = c.env := by
  cases hrun
  refine ⟨.of_grown (.of_work hvalid rfl List.prefix_rfl rfl hvalid.pool rfl ?_) rfl (by simp), rfl⟩
  exact ⟨rfl, trivial⟩

theorem emits_compileWhile {mCondition mBlock : Codegen Unit} {gCondition gBlock : Gen (List Asm)}
    (hcondition : Emits mCondition gCondition) (hblock : Emits mBlock gBlock) :
    Emits (compileWhile mCondition mBlock line) (Gen.whileStmt gCondition gBlock) := by
  intro c c' hvalid hrun
  rw [compileWhile, Exec.run_bind, codeLength] at hrun
  dsimp only at hrun
  rw [Exec.run_bind, run_pushBreakScope] at hrun
  dsimp only at hrun
  obtain ⟨_, c₁, hrun₁, hrun⟩ := Exec.run_bind_eq_ok.mp hrun
  have h₁ := hcondition _ c₁ (hvalid.looped 0) hrun₁
  obtain ⟨idx, c₂, hrun₂, hrun⟩ := Exec.run_bind_eq_ok.mp hrun
  obtain ⟨rfl, h₂, henv₂⟩ := emission_emit_jump h₁.valid .jmpIfNot hrun₂
  obtain ⟨_, c₃, hrun₃, hrun⟩ := Exec.run_bind_eq_ok.mp hrun
  have h₃ := hblock c₂ c₃ h₂.valid hrun₃
  obtain ⟨_, c₄, hrun₄, hrun⟩ := Exec.run_bind_eq_ok.mp hrun
  obtain ⟨h₄, henv₄⟩ := emission_emitBackJump h₃.valid hrun₄
  obtain ⟨_, c₅, hrun₅, hrun⟩ := Exec.run_bind_eq_ok.mp hrun
  have h₁₄ := ((h₁.emission.trans h₂).trans h₃.emission).trans h₄
  have hentry := henv₂.trans h₁.env
  rw [hentry] at h₁₄
  set condition := (gCondition (c.looped 0).env).1
  set block := (gBlock (gCondition (c.looped 0).env).2).1
  set d : Int := (c.current.proto.code.length : Int) - c₃.codeLen - 1
  set body := condition ++ [Asm.jump .jmpIfNot (block.length + 1)] ++ block
  have hopen : (c.looped 0).Emission
      (condition ++ Asm.jump .jmpIfNot 0 :: (block ++ [Asm.jump .jmp d]))
      (captured condition ∪ captured block) c₄ := by
    simpa using h₁₄
  rw [h₁.emission.toGrown.codeLen] at hrun₅
  obtain ⟨h₅, henv₅⟩ := hopen.patch_end hrun₅
  have hbody : (c.looped 0).Emission (body ++ [Asm.jump .jmp d])
      (captured condition ∪ captured block) c₅ := by
    simpa [body] using h₅
  have hd : d = -(body.length : Int) - 1 := by
    have hlen : c₃.codeLen = c.codeLen + condition.length + 1 + block.length := by
      rw [h₃.emission.toGrown.codeLen, h₂.toGrown.codeLen, h₁.emission.toGrown.codeLen, hentry]
      rfl
    have hstart : c.current.proto.code.length = c.codeLen := rfl
    simp only [d, body, hlen, hstart, List.length_append, List.length_singleton]
    omega
  obtain ⟨h₆, henv₆⟩ := emission_closedLoop hvalid hbody hd hrun
  have hgen : Gen.whileStmt gCondition gBlock c.env =
      (Gen.closedLoop body body.length,
        (Gen.exitLoop (gBlock (gCondition (c.looped 0).env).2).2).2) := rfl
  have hcaptured : captured (Gen.closedLoop body body.length) =
      captured condition ∪ captured block := by
    rw [captured_closedLoop, captured_append, captured_append, captured_jump, Set.union_empty]
  refine ⟨?_, ?_⟩
  · rw [hgen, hcaptured]
    exact h₆
  · rw [hgen, henv₆, henv₅, henv₄, h₃.env, hentry]

/-- Clauses whose jumps to the end are still without their distances. -/
def openClauses : List (List Asm × List Asm) → List Asm
  | [] => []
  | (condition, block) :: rest =>
    condition ++ [.jump .jmpIfNot (block.length + 1)] ++ block ++ [.jump .jmp 0] ++ openClauses rest

theorem openClauses_cons (condition block : List Asm) (rest : List (List Asm × List Asm)) :
    openClauses ((condition, block) :: rest) =
      condition ++ [.jump .jmpIfNot (block.length + 1)] ++ block ++ [.jump .jmp 0] ++
        openClauses rest := rfl

/-- Where the jumps to the end of the clauses are. -/
def endJumps : Nat → List (List Asm × List Asm) → List Nat
  | _, [] => []
  | base, (condition, block) :: rest =>
    (base + (condition.length + 1 + block.length)) ::
      endJumps (base + (condition.length + 1 + block.length + 1)) rest

theorem length_layoutClauses (clauses : List (List Asm × List Asm)) (rest : List Asm) :
    (Gen.layoutClauses clauses rest).length = (openClauses clauses ++ rest).length := by
  induction clauses with
  | nil => rfl
  | cons clause clauses ih =>
    obtain ⟨condition, block⟩ := clause
    simp only [Gen.layoutClauses, openClauses_cons, List.length_append, ih, List.length_singleton]
    omega

theorem captured_layoutClauses (clauses : List (List Asm × List Asm)) (rest : List Asm) :
    captured (Gen.layoutClauses clauses rest) = captured (openClauses clauses ++ rest) := by
  induction clauses with
  | nil => rfl
  | cons clause clauses ih =>
    obtain ⟨condition, block⟩ := clause
    simp only [Gen.layoutClauses, openClauses_cons, captured_append, captured_jump, ih,
      Set.union_empty, Set.union_assoc]

theorem captured_openClauses (condition block : List Asm) (rest : List (List Asm × List Asm)) :
    captured (openClauses ((condition, block) :: rest)) =
      captured condition ∪ captured block ∪ captured (openClauses rest) := by
  simp only [openClauses_cons, captured_append, captured_jump, Set.union_empty]

/-- The jumps to the end are given their distances, one after the other. -/
theorem Emission.patchEnds {clauses : List (List Asm × List Asm)} {rest : List Asm}
    (h : c.Emission (front ++ (openClauses clauses ++ rest)) A c')
    (hrun : (patchJumpsTo c'.codeLen (endJumps (c.codeLen + front.length) clauses)).run c' =
      (.ok (), c'')) :
    c.Emission (front ++ Gen.layoutClauses clauses rest) A c'' ∧ c''.env = c'.env := by
  induction clauses generalizing front c' with
  | nil =>
    cases hrun
    exact ⟨h, rfl⟩
  | cons clause clauses ih =>
    obtain ⟨condition, block⟩ := clause
    set before := front ++ (condition ++ [Asm.jump .jmpIfNot (block.length + 1)] ++ block)
    set after := openClauses clauses ++ rest
    have hfront : c.codeLen + front.length + (condition.length + 1 + block.length) =
        c.codeLen + before.length := by
      simp only [before, List.length_append, List.length_singleton]
      omega
    have hopen : c.Emission (before ++ .jump .jmp 0 :: after) A c' := by
      simpa [before, after, openClauses_cons] using h
    have hnext : c.codeLen + front.length + (condition.length + 1 + block.length + 1) =
        c.codeLen + (before ++ [Asm.jump .jmp after.length]).length := by
      simp only [before, List.length_append, List.length_singleton]
      omega
    rw [endJumps, patchJumpsTo, hfront, hnext] at hrun
    obtain ⟨_, mid, hrun₁, hrun₂⟩ := Exec.run_bind_eq_ok.mp hrun
    obtain ⟨h₁, henv₁, hlen⟩ := hopen.patch hrun₁
    have hdistance : (c'.codeLen : Int) - (c.codeLen + before.length : Nat) - 1 = after.length := by
      rw [hopen.toGrown.codeLen, List.length_append, List.length_cons]
      omega
    rw [hdistance, List.append_cons] at h₁
    rw [← hlen] at hrun₂
    obtain ⟨h₂, henv₂⟩ := ih h₁ hrun₂
    refine ⟨?_, henv₂.trans henv₁⟩
    rw [Gen.layoutClauses, length_layoutClauses]
    simpa [before, after] using h₂

theorem emission_compileElseifs {ms : List (Codegen Unit × Codegen Unit × UInt32)}
    {gs : List (Gen (List Asm) × Gen (List Asm))}
    (h : Forall₂ (fun m g => Emits m.1 g.1 ∧ Emits m.2.1 g.2) ms gs) {js : List Nat}
    (hvalid : c.Valid) (hrun : (compileElseifs ms).run c = (.ok js, c')) :
    c.Emission (openClauses (Gen.elseifs gs c.env).1)
        (captured (openClauses (Gen.elseifs gs c.env).1)) c' ∧
      c'.env = (Gen.elseifs gs c.env).2 ∧ js = endJumps c.codeLen (Gen.elseifs gs c.env).1 := by
  induction h generalizing c js with
  | nil =>
    cases hrun
    exact ⟨captured_nil ▸ .refl hvalid, rfl, rfl⟩
  | @cons m g ms gs hm _ ih =>
    obtain ⟨mCondition, mBlock, line⟩ := m
    obtain ⟨gCondition, gBlock⟩ := g
    obtain ⟨hcondition, hblock⟩ : Emits mCondition gCondition ∧ Emits mBlock gBlock := hm
    obtain ⟨_, c₁, hrun₁, hrun⟩ := Exec.run_bind_eq_ok.mp hrun
    have h₁ := hcondition c c₁ hvalid hrun₁
    obtain ⟨idx, c₂, hrun₂, hrun⟩ := Exec.run_bind_eq_ok.mp hrun
    obtain ⟨rfl, h₂, henv₂⟩ := emission_emit_jump h₁.valid .jmpIfNot hrun₂
    obtain ⟨_, c₃, hrun₃, hrun⟩ := Exec.run_bind_eq_ok.mp hrun
    have h₃ := hblock c₂ c₃ h₂.valid hrun₃
    obtain ⟨idx, c₄, hrun₄, hrun⟩ := Exec.run_bind_eq_ok.mp hrun
    obtain ⟨rfl, h₄, henv₄⟩ := emission_emit_jump h₃.valid .jmp hrun₄
    obtain ⟨_, c₅, hrun₅, hrun⟩ := Exec.run_bind_eq_ok.mp hrun
    obtain ⟨rest, c₆, hrun₆, hpure⟩ := Exec.run_bind_eq_ok.mp hrun
    cases hpure
    have h₁₄ := ((h₁.emission.trans h₂).trans h₃.emission).trans h₄
    have hentry := henv₂.trans h₁.env
    rw [hentry] at h₁₄
    set condition := (gCondition c.env).1
    set block := (gBlock (gCondition c.env).2).1
    have hopen : c.Emission (condition ++ Asm.jump .jmpIfNot 0 :: (block ++ [Asm.jump .jmp 0]))
        (captured condition ∪ captured block) c₄ := by
      simpa using h₁₄
    rw [h₁.emission.toGrown.codeLen] at hrun₅
    obtain ⟨h₅, henv₅⟩ := hopen.patch_end hrun₅
    obtain ⟨h₆, henv₆, hjs⟩ := ih h₅.valid hrun₆
    have hexit : c₅.env = (gBlock (gCondition c.env).2).2 := by rw [henv₅, henv₄, h₃.env, hentry]
    rw [hexit] at h₆ henv₆ hjs
    have hgen : Gen.elseifs ((gCondition, gBlock) :: gs) c.env =
        ((condition, block) :: (Gen.elseifs gs (gBlock (gCondition c.env).2).2).1,
          (Gen.elseifs gs (gBlock (gCondition c.env).2).2).2) := rfl
    rw [hgen]
    refine ⟨?_, henv₆, ?_⟩
    · have h₁₆ := h₅.trans h₆
      rw [captured_openClauses]
      simpa [openClauses_cons] using h₁₆
    · have hlen₃ : c₃.codeLen = c.codeLen + (condition.length + 1 + block.length) := by
        rw [h₃.emission.toGrown.codeLen, h₂.toGrown.codeLen, h₁.emission.toGrown.codeLen, hentry,
          List.length_singleton]
        simp only [condition, block]
        omega
      have hlen₅ : c₅.codeLen = c.codeLen + (condition.length + 1 + block.length + 1) := by
        rw [h₅.toGrown.codeLen]
        simp only [List.length_append, List.length_cons, List.length_nil]
        omega
      rw [endJumps, hjs, hlen₃, hlen₅]

theorem emits_compileIf {mCondition mThen : Codegen Unit} {gCondition gThen : Gen (List Asm)}
    {ms : List (Codegen Unit × Codegen Unit × UInt32)}
    {gs : List (Gen (List Asm) × Gen (List Asm))} {mElse : Option (Codegen Unit)}
    {gElse : Option (Gen (List Asm))} (hcondition : Emits mCondition gCondition)
    (hthen : Emits mThen gThen)
    (h : Forall₂ (fun m g => Emits m.1 g.1 ∧ Emits m.2.1 g.2) ms gs)
    (helse : Option.Rel Emits mElse gElse) :
    Emits (compileIf mCondition mThen ms mElse line) (Gen.ifStmt gCondition gThen gs gElse) := by
  have helse' : Emits (mElse.getD (pure ())) (Gen.optional gElse) := by
    cases helse with
    | none => exact .pure
    | some hm => exact hm
  by_cases hmore : ms ≠ [] ∨ mElse.isSome
  · intro c c' hvalid hrun
    have hsame : compileIf mCondition mThen ms mElse line =
        compileElseifs ((mCondition, mThen, line) :: ms) >>= fun js =>
          mElse.getD (pure ()) >>= fun _ => patchJumps js := by
      simp only [compileIf, if_pos hmore, compileElseifs, Exec.bind_assoc, Exec.pure_bind]
      cases mElse <;> rfl
    rw [hsame] at hrun
    obtain ⟨js, c₁, hrun₁, hrun⟩ := Exec.run_bind_eq_ok.mp hrun
    have hall : Forall₂ (fun m g => Emits m.1 g.1 ∧ Emits m.2.1 g.2)
        ((mCondition, mThen, line) :: ms) ((gCondition, gThen) :: gs) :=
      .cons ⟨hcondition, hthen⟩ h
    obtain ⟨h₁, henv₁, hjs⟩ := emission_compileElseifs hall hvalid hrun₁
    obtain ⟨_, c₂, hrun₂, hrun₃⟩ := Exec.run_bind_eq_ok.mp hrun
    have h₂ := helse' c₁ c₂ h₁.valid hrun₂
    have hpatch := patchJumps_eq_ok hrun₃
    rw [hjs] at hpatch
    have h₁₂ := h₁.trans h₂.emission
    rw [← captured_append, ← captured_layoutClauses, henv₁] at h₁₂
    obtain ⟨h₃, henv₃⟩ := Emission.patchEnds (show c.Emission ([] ++ _) _ _ from h₁₂) hpatch
    have hmore' : gs ≠ [] ∨ gElse.isSome := by
      rcases hmore with hms | hsome
      · refine .inl fun hgs => hms ?_
        subst hgs
        cases h
        rfl
      · cases helse with
        | none => cases hsome
        | some => exact .inr rfl
    have hgen : Gen.ifStmt gCondition gThen gs gElse c.env =
        (Gen.layoutClauses (Gen.elseifs ((gCondition, gThen) :: gs) c.env).1
          (Gen.optional gElse (Gen.elseifs ((gCondition, gThen) :: gs) c.env).2).1,
          (Gen.optional gElse (Gen.elseifs ((gCondition, gThen) :: gs) c.env).2).2) := by
      simp only [Gen.ifStmt, if_pos hmore']
      rfl
    rw [← henv₁] at hgen
    refine ⟨?_, ?_⟩
    · rw [hgen, henv₁]
      exact h₃
    · rw [hgen, henv₃, h₂.env]
  · obtain ⟨hms, hnone⟩ := not_or.mp hmore
    obtain rfl := not_not.mp hms
    cases h
    cases helse with
    | some => exact (hnone rfl).elim
    | none =>
      have hseq := hcondition.seq ((emits_jumpOver line hthen .jmpIfNot).seq .pure)
      simp only [Exec.bind_assoc] at hseq
      have hsame : compileIf mCondition mThen [] none line = mCondition >>= fun _ =>
          emit (.jmpIfNot 0) line >>= fun idx => mThen >>= fun _ => patchJump idx >>= fun _ =>
            pure () := by
        simp only [compileIf, if_neg hmore, compileElseifs, Exec.pure_bind, List.nil_append,
          patchJumps]
      have hgen : Gen.ifStmt gCondition gThen [] none =
          Gen.seq gCondition (Gen.seq (Gen.jumpOver .jmpIfNot gThen) (pure [])) := by
        funext env
        refine Prod.ext ?_ rfl
        change (_ ++ [_] ++ _ : List Asm) = _ ++ (_ :: _ ++ [])
        simp
      rw [hsame, hgen]
      exact hseq

end Compiler

end Proveno
