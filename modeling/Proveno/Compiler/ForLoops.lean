import Proveno.Compiler.Loops

/-! The instructions of numeric and of generic loops carry out their symbolic code. -/

namespace Proveno

open List (Forall₂)

namespace Gen

/-- Code, and then the code that depends on its value. -/
def andThen {α : Type} (g : Gen (List Asm × α)) (h : α → Gen (List Asm)) : Gen (List Asm) := do
  let (code, a) ← g
  let rest ← h a
  pure (code ++ rest)

/-- One turn of a numeric loop. -/
def turn (iSlot limSlot stepSlot varSlot : UInt8) (block : List Asm) : List Asm :=
  loopCheck iSlot limSlot stepSlot (block.length + 7) ++
    [.plain (.loadLocal iSlot), .plain (.storeLocal varSlot)] ++ block ++
    [.plain (.loadLocal iSlot), .plain (.loadLocal stepSlot), .plain .add,
      .plain (.storeLocal iSlot)]

def turns (iSlot limSlot stepSlot varSlot : UInt8) (block : Gen (List Asm)) :
    Gen (List Asm) := do
  enterLoop 0
  let block ← block
  exitLoop
  let body := turn iSlot limSlot stepSlot varSlot block
  pure (closedLoop body body.length)

theorem numericFor_eq (var : Bytes) (gStart gLimit gBlock : Gen (List Asm))
    (gStep : Option (Gen (List Asm))) :
    numericFor var gStart gLimit gStep gBlock = enterBlock >>= fun _ =>
      andThen (hidden (ascii "(for_i)") gStart) fun i =>
      andThen (hidden (ascii "(for_lim)") gLimit) fun l =>
      andThen (hidden (ascii "(for_step)") (step gStep)) fun s =>
      declare var false >>= fun v =>
        seq (turns i l s v gBlock) (exitBlock >>= fun _ => pure []) := by
  funext env
  refine Prod.ext ?_ rfl
  change (_ ++ _ ++ _ ++ _ : List Asm) = _ ++ (_ ++ (_ ++ (_ ++ [])))
  rw [List.append_nil, List.append_assoc, List.append_assoc]
  rfl

/-- One turn of a generic loop, with its start. -/
def iterationBody (kind : IterKind) (kSlot vSlot : UInt8) (block : List Asm) : List Asm :=
  [.jump (IterKind.jumpKind kind) (block.length + 4), .jump .iterNext (block.length + 3),
    .plain (.storeLocal vSlot), .plain (.storeLocal kSlot)] ++ block

def iteration (kind : IterKind) (vars : List (Bytes × Span)) (block : Gen (List Asm)) :
    Gen (List Asm) := do
  enterLoop 1
  enterBlock
  let (kSlot, vSlot) ← loopVars vars
  let block ← block
  exitBlock
  exitLoop
  let body := iterationBody kind kSlot vSlot block
  pure (closedLoop body (body.length - 1))

end Gen

namespace Compiler

variable {c c' c'' : Compiler} {code : List Asm} {line : UInt32}

/-- Wherever the computation succeeds it emits what is generated, and has its value. -/
def EmitsValue {α : Type} (m : Codegen α) (g : Gen (List Asm × α)) : Prop :=
  ∀ c c' a, c.Valid → m.run c = (.ok a, c') →
    c.Emission (g c.env).1.1 (captured (g c.env).1.1) c' ∧ c'.env = (g c.env).2 ∧
      a = (g c.env).1.2

theorem EmitsValue.bind {α : Type} {m : Codegen α} {g : Gen (List Asm × α)} {k : α → Codegen Unit}
    {h : α → Gen (List Asm)} (hm : EmitsValue m g) (hk : ∀ a, Emits (k a) (h a)) :
    Emits (m >>= k) (Gen.andThen g h) := by
  intro c c' hvalid hrun
  obtain ⟨a, mid, hrun₁, hrun₂⟩ := Exec.run_bind_eq_ok.mp hrun
  obtain ⟨h₁, henv₁, rfl⟩ := hm c mid a hvalid hrun₁
  have h₂ := hk _ mid c' h₁.valid hrun₂
  have hgen : Gen.andThen g h c.env =
      ((g c.env).1.1 ++ (h (g c.env).1.2 (g c.env).2).1, (h (g c.env).1.2 (g c.env).2).2) := rfl
  rw [← henv₁] at hgen
  refine ⟨?_, ?_⟩
  · rw [hgen, captured_append]
    exact h₁.trans h₂.emission
  · rw [hgen, h₂.env]

variable (line) in
theorem emitsValue_compileHidden (name : Bytes) {m : Codegen Unit} {g : Gen (List Asm)}
    (hm : Emits m g) : EmitsValue (compileHidden name m line) (Gen.hidden name g) := by
  intro c c' slot hvalid hrun
  obtain ⟨_, c₁, hrun₁, hrun⟩ := Exec.run_bind_eq_ok.mp hrun
  have h₁ := hm c c₁ hvalid hrun₁
  obtain ⟨slot', c₂, hrun₂, hrun⟩ := Exec.run_bind_eq_ok.mp hrun
  obtain ⟨rfl, h₂, henv₂⟩ := does_declareLocal line name true c₁ c₂ slot' h₁.valid hrun₂
  obtain ⟨_, c₃, hrun₃, hpure⟩ := Exec.run_bind_eq_ok.mp hrun
  cases hpure
  have h₃ := emits_plain line _ c₂ _ h₂.valid hrun₃
  have hgen : Gen.hidden name g c.env =
      (((g c.env).1 ++ [.plain (.storeLocal (Gen.declare name true (g c.env).2).1)],
        (Gen.declare name true (g c.env).2).1), (Gen.declare name true (g c.env).2).2) := rfl
  rw [← h₁.env] at hgen
  rw [hgen]
  refine ⟨?_, h₃.env.trans henv₂, rfl⟩
  have h := (h₁.emission.trans h₂).trans h₃.emission
  rw [Set.union_empty, List.append_nil] at h
  rw [captured_append]
  exact h

variable (line) in
theorem emits_compileStep {step : Option (Codegen Unit)} {gStep : Option (Gen (List Asm))}
    (h : Option.Rel Emits step gStep) : Emits (compileStep step line) (Gen.step gStep) := by
  cases h with
  | none => exact emits_compileConstant line (.integer 1)
  | some hm => exact hm

theorem does_declareLoopVars (vars : List (Bytes × Span)) :
    Does (declareLoopVars vars line) (Gen.loopVars vars) := by
  rcases vars with - | ⟨⟨key, keySpan⟩, - | ⟨⟨value, valueSpan⟩, rest⟩⟩
  · exact (does_declareLocal _ _ true).bind fun kSlot => (does_declareLocal _ _ true).bind fun vSlot =>
      does_pure (kSlot, vSlot)
  · exact (does_declareLocal _ _ false).bind fun kSlot => (does_declareLocal _ _ true).bind fun vSlot =>
      does_pure (kSlot, vSlot)
  · exact (does_declareLocal _ _ false).bind fun kSlot => (does_declareLocal _ _ false).bind fun vSlot =>
      does_pure (kSlot, vSlot)

/-- The check of a numeric loop, with the distances of the jumps out of it. -/
def check (iSlot limSlot stepSlot : UInt8) (neg pos : Int) : List Asm :=
  [.plain (.loadLocal stepSlot), .constant (.integer 0), .plain .lt, .jump .jmpIfNot 5,
    .plain (.loadLocal iSlot), .plain (.loadLocal limSlot), .plain .lt] ++ .jump .jmpIf neg ::
    ([.jump .jmp 4, .plain (.loadLocal iSlot), .plain (.loadLocal limSlot), .plain .gt] ++
      [.jump .jmpIf pos])

theorem emission_plain (hvalid : c.Valid) {instrs : List Instruction}
    (hrun : (emitAll line instrs).run c = (.ok (), c')) :
    c.Emission (instrs.map .plain) ∅ c' ∧ c'.env = c.env :=
  have hasm : c.Assembles (instrs.map .plain) instrs := assembled_plain _ _ _ _
  emission_emitAll hvalid hasm (by simp) hrun

theorem emission_compileLoopCheck {iSlot limSlot stepSlot : UInt8} {jumps : Nat × Nat}
    (hvalid : c.Valid)
    (hrun : (compileLoopCheck iSlot limSlot stepSlot line).run c = (.ok jumps, c')) :
    c.Emission (check iSlot limSlot stepSlot 0 0) ∅ c' ∧ c'.env = c.env ∧
      jumps = (c.codeLen + 7, c.codeLen + 12) := by
  obtain ⟨zeroIdx, c₁, hrun₁, hrun⟩ := Exec.run_bind_eq_ok.mp hrun
  obtain ⟨hat, h₁, henv₁⟩ := emission_addConstant hvalid hrun₁
  obtain ⟨_, c₂, hrun₂, hrun⟩ := Exec.run_bind_eq_ok.mp hrun
  have hzero : c₁.Assembles [.plain (.loadLocal stepSlot), .constant (.integer 0), .plain .lt]
      [.loadLocal stepSlot, .pushK zeroIdx, .lt] := ⟨rfl, ⟨zeroIdx, hat, rfl⟩, rfl, trivial⟩
  obtain ⟨h₂, henv₂⟩ := emission_emitAll h₁.valid hzero (by simp) hrun₂
  obtain ⟨positive, c₃, hrun₃, hrun⟩ := Exec.run_bind_eq_ok.mp hrun
  obtain ⟨rfl, h₃, henv₃⟩ := emission_emit_jump h₂.valid .jmpIfNot hrun₃
  obtain ⟨_, c₄, hrun₄, hrun⟩ := Exec.run_bind_eq_ok.mp hrun
  obtain ⟨h₄, henv₄⟩ := emission_plain h₃.valid hrun₄
  obtain ⟨exitNeg, c₅, hrun₅, hrun⟩ := Exec.run_bind_eq_ok.mp hrun
  obtain ⟨rfl, h₅, henv₅⟩ := emission_emit_jump h₄.valid .jmpIf hrun₅
  obtain ⟨continues, c₆, hrun₆, hrun⟩ := Exec.run_bind_eq_ok.mp hrun
  obtain ⟨rfl, h₆, henv₆⟩ := emission_emit_jump h₅.valid .jmp hrun₆
  obtain ⟨_, c₇, hrun₇, hrun⟩ := Exec.run_bind_eq_ok.mp hrun
  have hlen₂ : c₂.codeLen = c.codeLen + 3 := by rw [h₂.toGrown.codeLen, h₁.toGrown.codeLen]; rfl
  have hlen₄ : c₄.codeLen = c.codeLen + 7 := by
    rw [h₄.toGrown.codeLen, h₃.toGrown.codeLen, hlen₂]
    rfl
  have hlen₅ : c₅.codeLen = c.codeLen + 8 := by rw [h₅.toGrown.codeLen, hlen₄]; rfl
  have hopen₁ : c.Emission ([.plain (.loadLocal stepSlot), .constant (.integer 0), .plain .lt] ++
      .jump .jmpIfNot 0 :: [.plain (.loadLocal iSlot), .plain (.loadLocal limSlot), .plain .lt,
        .jump .jmpIf 0, .jump .jmp 0]) ∅ c₆ := by
    have h := ((((h₁.trans h₂).trans h₃).trans h₄).trans h₅).trans h₆
    simpa using h
  rw [hlen₂] at hrun₇
  obtain ⟨h₇, henv₇⟩ := hopen₁.patch_end hrun₇
  obtain ⟨_, c₈, hrun₈, hrun⟩ := Exec.run_bind_eq_ok.mp hrun
  obtain ⟨h₈, henv₈⟩ := emission_plain h₇.valid hrun₈
  obtain ⟨exitPos, c₉, hrun₉, hrun⟩ := Exec.run_bind_eq_ok.mp hrun
  obtain ⟨rfl, h₉, henv₉⟩ := emission_emit_jump h₈.valid .jmpIf hrun₉
  obtain ⟨_, c₁₀, hrun₁₀, hpure⟩ := Exec.run_bind_eq_ok.mp hrun
  cases hpure
  have hlen₈ : c₈.codeLen = c.codeLen + 12 := by rw [h₈.toGrown.codeLen, h₇.toGrown.codeLen]; rfl
  have hopen₂ : c.Emission ([.plain (.loadLocal stepSlot), .constant (.integer 0), .plain .lt,
      .jump .jmpIfNot 5, .plain (.loadLocal iSlot), .plain (.loadLocal limSlot), .plain .lt,
      .jump .jmpIf 0] ++ .jump .jmp 0 :: [.plain (.loadLocal iSlot), .plain (.loadLocal limSlot),
        .plain .gt, .jump .jmpIf 0]) ∅ c₉ := by
    have h := (h₇.trans h₈).trans h₉
    simpa using h
  rw [hlen₅] at hrun₁₀
  obtain ⟨h₁₀, henv₁₀⟩ := hopen₂.patch_end hrun₁₀
  refine ⟨h₁₀, ?_, by rw [hlen₄, hlen₈]⟩
  rw [henv₁₀, henv₉, henv₈, henv₇, henv₆, henv₅, henv₄, henv₃, henv₂, henv₁]

/-- The turns of a numeric loop, whose variables have their slots. -/
def compileTurns (iSlot limSlot stepSlot varSlot : UInt8) (compileBlock : Codegen Unit)
    (line : UInt32) : Codegen Unit := do
  let loopStart ← codeLength
  pushBreakScope 0
  let (jmpExitNeg, jmpExitPos) ← compileLoopCheck iSlot limSlot stepSlot line
  emitAll line [.loadLocal iSlot, .storeLocal varSlot]
  compileBlock
  emitAll line [.loadLocal iSlot, .loadLocal stepSlot, .add, .storeLocal iSlot]
  emitBackJump loopStart line
  patchJump jmpExitNeg
  patchJump jmpExitPos
  patchJumps (← popBreakScope)

variable (line) in
theorem emits_compileTurns (iSlot limSlot stepSlot varSlot : UInt8) {m : Codegen Unit}
    {g : Gen (List Asm)} (hm : Emits m g) :
    Emits (compileTurns iSlot limSlot stepSlot varSlot m line)
      (Gen.turns iSlot limSlot stepSlot varSlot g) := by
  intro c c' hvalid hrun
  rw [compileTurns, Exec.run_bind, codeLength] at hrun
  dsimp only at hrun
  rw [Exec.run_bind, run_pushBreakScope] at hrun
  dsimp only at hrun
  obtain ⟨jumps, c₁, hrun₁, hrun⟩ := Exec.run_bind_eq_ok.mp hrun
  obtain ⟨h₁, henv₁, rfl⟩ := emission_compileLoopCheck (hvalid.looped 0) hrun₁
  dsimp only at hrun
  obtain ⟨_, c₂, hrun₂, hrun⟩ := Exec.run_bind_eq_ok.mp hrun
  obtain ⟨h₂, henv₂⟩ := emission_plain h₁.valid hrun₂
  obtain ⟨_, c₃, hrun₃, hrun⟩ := Exec.run_bind_eq_ok.mp hrun
  have h₃ := hm c₂ c₃ h₂.valid hrun₃
  obtain ⟨_, c₄, hrun₄, hrun⟩ := Exec.run_bind_eq_ok.mp hrun
  obtain ⟨h₄, henv₄⟩ := emission_plain h₃.valid hrun₄
  obtain ⟨_, c₅, hrun₅, hrun⟩ := Exec.run_bind_eq_ok.mp hrun
  obtain ⟨h₅, henv₅⟩ := emission_emitBackJump h₄.valid hrun₅
  obtain ⟨_, c₆, hrun₆, hrun⟩ := Exec.run_bind_eq_ok.mp hrun
  obtain ⟨_, c₇, hrun₇, hrun⟩ := Exec.run_bind_eq_ok.mp hrun
  have hentry := henv₂.trans henv₁
  have hblock := h₃.emission
  rw [hentry] at hblock
  set block := (g (c.looped 0).env).1
  set d : Int := (c.current.proto.code.length : Int) - c₄.codeLen - 1
  set rest : List Asm := [.plain (.loadLocal iSlot), .plain (.storeLocal varSlot)] ++ block ++
    [Asm.plain (.loadLocal iSlot), .plain (.loadLocal stepSlot), .plain .add,
      .plain (.storeLocal iSlot), .jump .jmp d]
  have hopen₁ : (c.looped 0).Emission ([Asm.plain (.loadLocal stepSlot), .constant (.integer 0),
      .plain .lt, .jump .jmpIfNot 5, .plain (.loadLocal iSlot), .plain (.loadLocal limSlot),
      .plain .lt] ++ .jump .jmpIf 0 :: ([.jump .jmp 4, .plain (.loadLocal iSlot),
        .plain (.loadLocal limSlot), .plain .gt, .jump .jmpIf 0] ++ rest)) (captured block) c₅ := by
    have h := (((h₁.trans h₂).trans hblock).trans h₄).trans h₅
    simpa [check, rest] using h
  obtain ⟨h₆, henv₆⟩ := hopen₁.patch_end hrun₆
  have hopen₂ : (c.looped 0).Emission ([.plain (.loadLocal stepSlot), .constant (.integer 0),
      .plain .lt, .jump .jmpIfNot 5, .plain (.loadLocal iSlot), .plain (.loadLocal limSlot),
      .plain .lt, .jump .jmpIf (rest.length + 5), .jump .jmp 4, .plain (.loadLocal iSlot),
      .plain (.loadLocal limSlot), .plain .gt] ++ .jump .jmpIf 0 :: rest) (captured block) c₆ := by
    simpa [Int.add_assoc] using h₆
  obtain ⟨h₇, henv₇⟩ := hopen₂.patch_end hrun₇
  have hrest : (rest.length : Int) = block.length + 7 := by
    simp only [rest, List.length_append, List.length_cons, List.length_nil]
    omega
  set body := Gen.turn iSlot limSlot stepSlot varSlot block
  have hbody : (c.looped 0).Emission (body ++ [Asm.jump .jmp d]) (captured block) c₇ := by
    rw [hrest] at h₇
    simpa [body, Gen.turn, Gen.loopCheck, rest] using h₇
  have hd : d = -(body.length : Int) - 1 := by
    have hlen : c₄.codeLen + 1 = c.codeLen + 13 + rest.length := by
      rw [h₄.toGrown.codeLen, h₃.emission.toGrown.codeLen, h₂.toGrown.codeLen, h₁.toGrown.codeLen,
        hentry]
      simp only [rest, List.length_append, List.length_cons, List.length_nil]
      change c.codeLen + 13 + _ + _ + _ + _ = _
      simp only [block, List.length_map, List.length_cons, List.length_nil]
      omega
    have hbodyLen : body.length = 12 + rest.length := by
      simp only [body, rest, Gen.turn, Gen.loopCheck, List.length_append, List.length_cons,
        List.length_nil]
      omega
    have hstart : c.current.proto.code.length = c.codeLen := rfl
    simp only [d, hstart]
    omega
  obtain ⟨h₈, henv₈⟩ := emission_closedLoop hvalid hbody hd hrun
  have hgen : Gen.turns iSlot limSlot stepSlot varSlot g c.env =
      (Gen.closedLoop body body.length, (Gen.exitLoop (g (c.looped 0).env).2).2) := rfl
  have hcaptured : captured (Gen.closedLoop body body.length) = captured block := by
    have hplain (is : List Instruction) : captured (is.map .plain) = ∅ :=
      captured_of_closed (closed_plain is)
    have hcheck (n : Nat) : captured (Gen.loopCheck iSlot limSlot stepSlot n) = ∅ := captured_nil
    have hfront := hplain [.loadLocal iSlot, .storeLocal varSlot]
    have hback := hplain [.loadLocal iSlot, .loadLocal stepSlot, .add, .storeLocal iSlot]
    simp only [List.map_cons, List.map_nil] at hfront hback
    rw [captured_closedLoop]
    simp only [body, Gen.turn, captured_append, hcheck, hfront, hback, Set.empty_union,
      Set.union_empty]
  refine ⟨?_, ?_⟩
  · rw [hgen, hcaptured]
    exact h₈
  · rw [hgen, henv₈, henv₇, henv₆, henv₅, henv₄, h₃.env, hentry]

theorem emits_compileNumericFor {var : Bytes} {varSpan : Span} {mStart mLimit mBlock : Codegen Unit}
    {mStep : Option (Codegen Unit)} {gStart gLimit gBlock : Gen (List Asm)}
    {gStep : Option (Gen (List Asm))} (hstart : Emits mStart gStart) (hlimit : Emits mLimit gLimit)
    (hstep : Option.Rel Emits mStep gStep) (hblock : Emits mBlock gBlock) :
    Emits (compileNumericFor var varSpan mStart mLimit mStep mBlock line)
      (Gen.numericFor var gStart gLimit gStep gBlock) := by
  have hturns (i l s v : UInt8) := (emits_compileTurns line i l s v hblock).seq does_exitBlock.emits
  have hchain := Emits.bind does_enterBlock fun _ =>
    (emitsValue_compileHidden line (ascii "(for_i)") hstart).bind fun i =>
    (emitsValue_compileHidden line (ascii "(for_lim)") hlimit).bind fun l =>
    (emitsValue_compileHidden line (ascii "(for_step)") (emits_compileStep line hstep)).bind fun s =>
    Emits.bind (does_declareLocal varSpan.line var false) fun v => hturns i l s v
  simp only [compileTurns, Exec.bind_assoc] at hchain
  rw [Gen.numericFor_eq]
  exact hchain

/-- The turns of a generic loop over the table on the stack. -/
def compileIteration (kind : IterKind) (vars : List (Bytes × Span)) (compileBlock : Codegen Unit)
    (line : UInt32) : Codegen Unit := do
  pushBreakScope 1
  let initIdx ← emit kind.init line
  let loopTop ← codeLength
  let nextIdx ← emit (.iterNext 0) line
  enterBlock
  let (kSlot, vSlot) ← declareLoopVars vars line
  emitAll line [.storeLocal vSlot, .storeLocal kSlot]
  compileBlock
  exitBlock
  emitBackJump loopTop line
  let loopEnd ← codeLength
  patchJumpTo nextIdx loopEnd
  patchJumpTo initIdx loopEnd
  patchJumpsTo loopEnd (← popBreakScope)

theorem emits_compileIteration {kind : IterKind} {vars : List (Bytes × Span)} {m : Codegen Unit}
    {g : Gen (List Asm)} (hm : Emits m g) :
    Emits (compileIteration kind vars m line) (Gen.iteration kind vars g) := by
  intro c c' hvalid hrun
  have hkind : kind.init = (Gen.IterKind.jumpKind kind).instruction 0 := by cases kind <;> rfl
  rw [compileIteration, Exec.run_bind, run_pushBreakScope, hkind] at hrun
  dsimp only at hrun
  obtain ⟨initIdx, c₁, hrun₁, hrun⟩ := Exec.run_bind_eq_ok.mp hrun
  obtain ⟨rfl, h₁, henv₁⟩ := emission_emit_jump (hvalid.looped 1) _ hrun₁
  obtain ⟨loopTop, mid, htop, hrun⟩ := Exec.run_bind_eq_ok.mp hrun
  cases htop
  obtain ⟨nextIdx, c₂, hrun₂, hrun⟩ := Exec.run_bind_eq_ok.mp hrun
  obtain ⟨rfl, h₂, henv₂⟩ := emission_emit_jump h₁.valid .iterNext hrun₂
  obtain ⟨_, c₃, hrun₃, hrun⟩ := Exec.run_bind_eq_ok.mp hrun
  obtain ⟨-, h₃, henv₃⟩ := does_enterBlock c₂ c₃ _ h₂.valid hrun₃
  obtain ⟨slots, c₄, hrun₄, hrun⟩ := Exec.run_bind_eq_ok.mp hrun
  obtain ⟨rfl, h₄, henv₄⟩ := does_declareLoopVars vars c₃ c₄ _ h₃.valid hrun₄
  obtain ⟨_, c₅, hrun₅, hrun⟩ := Exec.run_bind_eq_ok.mp hrun
  obtain ⟨h₅, henv₅⟩ := emission_plain h₄.valid hrun₅
  obtain ⟨_, c₆, hrun₆, hrun⟩ := Exec.run_bind_eq_ok.mp hrun
  have h₆ := hm c₅ c₆ h₅.valid hrun₆
  obtain ⟨_, c₇, hrun₇, hrun⟩ := Exec.run_bind_eq_ok.mp hrun
  obtain ⟨-, h₇, henv₇⟩ := does_exitBlock c₆ c₇ _ h₆.valid hrun₇
  obtain ⟨_, c₈, hrun₈, hrun⟩ := Exec.run_bind_eq_ok.mp hrun
  obtain ⟨h₈, henv₈⟩ := emission_emitBackJump h₇.valid hrun₈
  obtain ⟨loopEnd, mid, hend, hrun⟩ := Exec.run_bind_eq_ok.mp hrun
  cases hend
  obtain ⟨_, c₉, hrun₉, hrun⟩ := Exec.run_bind_eq_ok.mp hrun
  obtain ⟨_, c₁₀, hrun₁₀, hrun⟩ := Exec.run_bind_eq_ok.mp hrun
  have hentry : c₃.env = (Gen.enterBlock (c.looped 1).env).2 := by rw [henv₃, henv₂, henv₁]
  rw [hentry] at h₅ henv₄
  set entry := (Gen.enterBlock (c.looped 1).env).2
  set kSlot := (Gen.loopVars vars entry).1.1
  set vSlot := (Gen.loopVars vars entry).1.2
  have hblock := h₆.emission
  have hexit := h₆.env
  rw [henv₅, henv₄] at hblock hexit
  set block := (g (Gen.loopVars vars entry).2).1
  set d : Int := (c₁.current.proto.code.length : Int) - c₇.codeLen - 1
  have hopen₁ : (c.looped 1).Emission
      ([Asm.jump (Gen.IterKind.jumpKind kind) 0] ++ Asm.jump .iterNext 0 ::
        ([.plain (.storeLocal vSlot), .plain (.storeLocal kSlot)] ++ block ++ [Asm.jump .jmp d]))
      (captured block) c₈ := by
    have h := ((((((h₁.trans h₂).trans h₃).trans h₄).trans h₅).trans hblock).trans h₇).trans h₈
    simpa using h
  have hlen₈ : c₈.codeLen = c.codeLen + (block.length + 5) := by
    rw [hopen₁.toGrown.codeLen]
    simp only [List.length_append, List.length_cons, List.length_nil]
    change c.codeLen + _ = _
    omega
  have hlen₇ : c₇.codeLen + 1 = c₈.codeLen := h₈.toGrown.codeLen.symm
  have hlen₁ : c₁.current.proto.code.length = (c.looped 1).codeLen + 1 := h₁.toGrown.codeLen
  have hnext : c₁.codeLen = (c.looped 1).codeLen + [Asm.jump (Gen.IterKind.jumpKind kind) 0].length :=
    h₁.toGrown.codeLen
  rw [hnext] at hrun₉
  obtain ⟨h₉, henv₉⟩ := hopen₁.patch_end hrun₉
  have hlen₉ : c₉.codeLen = c₈.codeLen := codeLen_patchJumpTo hrun₉
  have hopen₂ : (c.looped 1).Emission ([] ++ Asm.jump (Gen.IterKind.jumpKind kind) 0 ::
      ([.jump .iterNext (block.length + 3), .plain (.storeLocal vSlot), .plain (.storeLocal kSlot)] ++
        block ++ [Asm.jump .jmp d])) (captured block) c₉ := by
    simpa [Int.add_assoc] using h₉
  have hpatch : (patchJump ((c.looped 1).codeLen + ([] : List Asm).length)).run c₉ = (.ok (), c₁₀) := by
    rw [run_patchJump, hlen₉]
    exact hrun₁₀
  obtain ⟨h₁₀, henv₁₀⟩ := hopen₂.patch_end hpatch
  have hlen₁₀ : c₁₀.codeLen = c₈.codeLen := (codeLen_patchJumpTo hrun₁₀).trans hlen₉
  set body := Gen.iterationBody kind kSlot vSlot block
  have hbody : (c.looped 1).Emission (body ++ [Asm.jump .jmp d]) (captured block) c₁₀ := by
    simpa [body, Gen.iterationBody, Int.add_assoc] using h₁₀
  have hd : d = -((body.length - 1 : Nat) : Int) - 1 := by
    have hbodyLen : body.length = block.length + 4 := by
      simp only [body, Gen.iterationBody, List.length_append, List.length_cons, List.length_nil]
      omega
    have hstart : (c.looped 1).codeLen = c.codeLen := rfl
    simp only [d, hlen₁, hstart, hbodyLen]
    omega
  have hlast : (popBreakScope >>= patchJumpsTo c₁₀.codeLen).run c₁₀ = (.ok (), c') := by
    rw [hlen₁₀]
    exact hrun
  obtain ⟨h₁₁, henv₁₁⟩ := emission_closedLoop_to hvalid hbody hd hlast
  have hgen : Gen.iteration kind vars g c.env = (Gen.closedLoop body (body.length - 1),
      (Gen.exitLoop (Gen.exitBlock (g (Gen.loopVars vars entry).2).2).2).2) := rfl
  have hcaptured : captured (Gen.closedLoop body (body.length - 1)) = captured block := by
    have hfront : captured [.jump (Gen.IterKind.jumpKind kind) (block.length + 4),
        .jump .iterNext (block.length + 3), .plain (.storeLocal vSlot), .plain (.storeLocal kSlot)] =
        ∅ := captured_nil
    rw [captured_closedLoop]
    simp only [body, Gen.iterationBody, captured_append, hfront, Set.empty_union]
  refine ⟨?_, ?_⟩
  · rw [hgen, hcaptured]
    exact h₁₁
  · rw [hgen, henv₁₁, henv₁₀, henv₉, henv₈, henv₇, hexit]

theorem emits_compileGenericLoop {kind : IterKind} {vars : List (Bytes × Span)}
    {mTable mBlock : Codegen Unit} {gTable gBlock : Gen (List Asm)} (htable : Emits mTable gTable)
    (hblock : Emits mBlock gBlock) :
    Emits (compileGenericLoop kind vars mTable mBlock line)
      (Gen.genericLoop kind vars gTable gBlock) :=
  htable.seq (emits_compileIteration hblock)

theorem emits_compileGenericFor {vars : List (Bytes × Span)} {iterators : List Expr}
    {ms : List Compiled} {gs : List (Parts (Gen (List Asm)))} {mBlock : Codegen Unit}
    {gBlock : Gen (List Asm)} (h : Forall₂ EmitsParts ms gs) (hblock : Emits mBlock gBlock) :
    Emits (compileGenericFor vars iterators ms mBlock line)
      (Gen.genericFor vars iterators gs gBlock) := by
  unfold compileGenericFor
  split
  · rename_i name _ _ _ _ _ mTable mRest
    obtain - | ⟨hm, - | -⟩ := h
    rename_i g
    obtain ⟨whole, parts, args⟩ := g
    obtain - | ⟨htable, hrest⟩ : Forall₂ Emits (mTable :: mRest) args := hm.args
    unfold Gen.genericFor
    dsimp only
    cases iterKindOf name with
    | none => exact .fail
    | some kind => exact emits_compileGenericLoop htable hblock
  · exact .fail

end Compiler

end Proveno
