import Proveno.Compiler.Patching

/-! A function is compiled into a prototype that carries out its symbolic code, and takes
the variables that its code uses from the function around. -/

namespace Proveno

open List (Forall₂)

mutual

theorem Asm.captures_pos {name : Bytes} {level : Nat} :
    {asm : Asm} → (name, level) ∈ asm.captures → 0 < level
  | .plain _, h | .constant _, h | .getField _, h | .setField _, h | .jump _ _, h | .breakOut, h
  | .call _, h | .pcall _, h | .concat _, h => absurd h List.not_mem_nil
  | .load x, h | .store x, h => by
    unfold Asm.captures at h
    split_ifs at h with hlevel
    · cases h
    · cases List.mem_singleton.mp h
      omega
  | .closure _ _ code, h => by
    obtain ⟨⟨name', level'⟩, -, hsome⟩ := List.mem_filterMap.mp h
    dsimp only at hsome
    split_ifs at hsome
    cases hsome
    omega

theorem captures_pos {name : Bytes} {level : Nat} :
    {code : List Asm} → (name, level) ∈ captures code → 0 < level
  | [], h => absurd h List.not_mem_nil
  | _ :: _, h => (List.mem_append.mp h).elim Asm.captures_pos captures_pos

end

/-- What a function captures, seen from the function around it. -/
theorem mem_captures_closure {locals : List LocalVar} {params : Nat} {code : List Asm}
    {name : Bytes} {level : Nat} :
    (name, level) ∈ (Asm.closure locals params code).captures ↔
      0 < level ∧ (name, level + 1) ∈ captures code := by
  rw [Asm.captures, List.mem_filterMap]
  constructor
  · rintro ⟨⟨name', level'⟩, hmem, hsome⟩
    dsimp only at hsome
    split_ifs at hsome with hlt
    cases hsome
    rw [Nat.sub_add_cancel hlt.le]
    exact ⟨by omega, hmem⟩
  · rintro ⟨hpos, hmem⟩
    exact ⟨_, hmem, by simp [hpos]⟩

theorem Asm.Assembled.ret_iff {prototypes : List FunctionProto} {constants : List Constant}
    {names : List Bytes} {asm : Asm} {instr : Instruction}
    (h : asm.Assembled prototypes constants names instr) :
    (∃ n, instr = .ret n) ↔ ∃ n, asm = .plain (.ret n) := by
  cases asm with
  | plain i =>
    cases show instr = i from h
    simp
  | constant | getField | setField =>
    obtain ⟨idx, -, rfl⟩ := h
    simp
  | load x | store x =>
    change (if x.level = 0 then _ else _) at h
    split_ifs at h
    · cases h
      simp
    · obtain ⟨i, -, rfl⟩ := h
      simp
  | jump kind distance =>
    cases show instr = _ from h
    cases kind <;> simp [JumpKind.instruction]
  | closure =>
    obtain ⟨n, proto, inner, rfl, -⟩ := h
    simp
  | _ =>
    cases show instr = _ from h
    simp

theorem Assembled.endsInRet {prototypes : List FunctionProto} {constants : List Constant}
    {names : List Bytes} {code : List Asm} {instrs : List Instruction}
    (h : Assembled prototypes constants names code instrs) :
    Compiler.endsInRet instrs = Gen.endsInRet code := by
  rcases List.eq_nil_or_concat code with rfl | ⟨init, asm, rfl⟩
  · cases instrs with
    | nil => rfl
    | cons => exact h.elim
  · rw [List.concat_eq_append] at h ⊢
    obtain ⟨front, back, rfl, -, hback⟩ := assembled_append.mp h
    rcases back with - | ⟨instr, rest⟩
    · exact hback.elim
    rcases rest with - | ⟨next, rest⟩
    · have hret := Asm.Assembled.ret_iff hback.1
      have hleft : Compiler.endsInRet (front ++ [instr]) = true ↔ ∃ n, instr = .ret n := by
        rw [Compiler.endsInRet, List.getLast?_concat]
        cases instr <;> simp
      have hright : Gen.endsInRet (init ++ [asm]) = true ↔ ∃ n, asm = .plain (.ret n) := by
        rw [Gen.endsInRet, List.getLast?_concat]
        rcases asm with instr | _ | _ | _ | _ | _ | _ | _ | _ | _ | _ | _
        · cases instr <;> simp
        all_goals simp
      exact Bool.eq_iff_iff.mpr (hleft.trans (hret.trans hright.symm))
    · exact hback.2.elim

namespace Compiler

variable {c c' c'' : Compiler} {code : List Asm} {line : UInt32}

theorem does_registerParam (name : Bytes) (slot : UInt8) :
    Does (registerParam name slot) (Gen.modifyLocals (·.push ⟨name, slot, false⟩)) := by
  intro c c' _ hvalid hrun
  rw [registerParam, Exec.run_bind, currentScope] at hrun
  dsimp only at hrun
  obtain ⟨s, mid, hpush, hset⟩ := Exec.run_bind_eq_ok.mp hrun
  unfold FunctionScope.pushLocal at hpush
  cases hblocks : c.current.blocks with
  | nil =>
    rw [hblocks] at hpush
    cases hpush
  | cons block rest =>
    rw [hblocks] at hpush
    cases hpush
    cases hset
    refine ⟨rfl, .of_grown (.of_quiet hvalid rfl rfl) rfl List.not_mem_nil, ?_⟩
    change _ = Env.mk (c.current.locals.push _) _
    rw [Locals.push, FunctionScope.locals, hblocks]
    rfl

theorem Does.bind {α β : Type} {m : Codegen α} {f : Gen α} {k : α → Codegen β} {h : α → Gen β}
    (hm : Does m f) (hk : ∀ a, Does (k a) (h a)) : Does (m >>= k) (f >>= h) := by
  intro c c' b hvalid hrun
  obtain ⟨a, mid, hrun₁, hrun₂⟩ := Exec.run_bind_eq_ok.mp hrun
  obtain ⟨rfl, h₁, henv₁⟩ := hm c mid a hvalid hrun₁
  obtain ⟨rfl, h₂, henv₂⟩ := hk _ mid c' b h₁.valid hrun₂
  refine ⟨?_, ?_, ?_⟩
  · rw [henv₁]
    rfl
  · have h₁₂ := h₁.trans h₂
    rwa [Set.empty_union] at h₁₂
  · rw [henv₂, henv₁]
    rfl

theorem does_pure {α : Type} (a : α) : Does (pure a) (pure a) := by
  intro c c' b hvalid hrun
  cases hrun
  exact ⟨rfl, .refl hvalid, rfl⟩

theorem does_addU8 (a b : UInt8) : Does (addU8 a b) (pure (a + b)) := by
  intro c c' sum hvalid hrun
  obtain ⟨rfl, rfl⟩ := run_addU8_eq_ok hrun
  exact ⟨rfl, .refl hvalid, rfl⟩

theorem does_registerParams (names : List Bytes) (slot : UInt8) :
    Does (registerParams names slot) (Gen.registerParams names slot) := by
  induction names generalizing slot with
  | nil => exact does_pure ()
  | cons name rest ih =>
    exact (does_registerParam name slot).bind fun _ => (does_addU8 slot 1).bind ih

/-- A function that has just been entered. -/
def entered (paramCount : UInt8) (c : Compiler) : Compiler :=
  { c with
    current := { FunctionScope.new paramCount with blocks := [[]] }
    enclosing := c.current :: c.enclosing }

theorem Valid.entered (h : c.Valid) (paramCount : UInt8) : (c.entered paramCount).Valid where
  wired := ⟨h.wired, by simp [Compiler.entered, FunctionScope.new]⟩
  nodup := List.forall_mem_cons.mpr ⟨List.nodup_nil, h.nodup⟩
  pools := List.forall_mem_cons.mpr ⟨Nat.zero_le _, h.pools⟩
  chunk := h.chunk

theorem takenFrom_source {s s' : FunctionScope} {rest : List FunctionScope}
    {upvalues : List (Bytes × UpvalueDesc)} (hs : s.Captures s')
    (h : ∀ u ∈ upvalues, Source (s' :: rest) u) :
    TakenFrom s.blocks.flatten s'.names (upvalues.map (·.1)) (upvalues.map (·.2)) := by
  induction upvalues with
  | nil => exact .nil
  | cons u upvalues ih =>
    rw [List.forall_mem_cons] at h
    refine .cons ?_ (ih h.2)
    have hsource := h.1
    rw [Source, hs.findLocal] at hsource
    have hfind : (s.blocks.flatten.find? fun v => v.name = u.1) = s.findLocal u.1 := rfl
    rw [hfind]
    cases hcase : s.findLocal u.1 with
    | some v =>
      rw [hcase] at hsource
      exact hsource
    | none =>
      rw [hcase] at hsource
      obtain ⟨i, desc, hget, hdesc⟩ := hsource
      exact ⟨i, by rw [FunctionScope.names, List.getElem?_map, hget]; rfl, hdesc⟩

theorem run_exitFunction {s : FunctionScope} {rest : List FunctionScope}
    (h : c.enclosing = s :: rest) :
    exitFunction.run c = (.ok c.current.finish, { c with current := s, enclosing := rest }) := by
  rw [exitFunction]
  dsimp only
  rw [h]

theorem run_pushProto_eq_ok {proto : FunctionProto} {idx : Nat}
    (hrun : (pushProto proto).run c = (.ok idx, c')) :
    idx = c.prototypes.length ∧ idx < 65535 ∧
      c' = { c with prototypes := c.prototypes ++ [proto] } := by
  rw [pushProto, Exec.run_bind, Exec.run_get] at hrun
  dsimp only at hrun
  by_cases hfull : c.prototypes.length ≥ 65535
  · rw [if_pos hfull] at hrun
    cases hrun
  · rw [if_neg hfull] at hrun
    cases hrun
    exact ⟨rfl, by omega, rfl⟩

/-- The variables that a function captures are those of the functions around it, which see
them one function less far out. -/
theorem names_closure {locals : List LocalVar} {params k : Nat} {name : Bytes} :
    (∃ level, k < level ∧ (name, level) ∈ captured [.closure locals params code]) ↔
      ∃ level, k + 1 < level ∧ (name, level) ∈ captured code := by
  have hmem (level : Nat) : (name, level) ∈ captured [.closure locals params code] ↔
      0 < level ∧ (name, level + 1) ∈ captures code := by
    have hclosure : (name, level) ∈ (Asm.closure locals params code).captures ↔
        0 < level ∧ (name, level + 1) ∈ captures code := mem_captures_closure
    rw [← hclosure]
    simp [captured, captures]
  constructor
  · rintro ⟨level, hlt, h⟩
    exact ⟨level + 1, by omega, ((hmem level).mp h).2⟩
  · rintro ⟨level, hlt, h⟩
    refine ⟨level - 1, by omega, (hmem _).mpr ⟨by omega, ?_⟩⟩
    rwa [Nat.sub_add_cancel (by omega)]

/-- The innermost function has been compiled from where it was entered. -/
theorem emission_exitFunction {paramCount : UInt8} {params idx : Nat}
    (hparams : paramCount = .ofNat params)
    (h : (c.entered paramCount).Emission code (captured code) c')
    (hrun : (exitFunction >>= pushProto).run c' = (.ok idx, c'')) :
    c.Emission [] (captured [.closure c.env.current.visible params code]) c'' ∧ c''.env = c.env ∧
      c''.Assembles [.closure c.env.current.visible params code] [.closure (.ofNat idx)] := by
  have henclosing : Forall₂ FunctionScope.Captures (c.current :: c.enclosing) c'.enclosing :=
    h.enclosing
  cases hcase : c'.enclosing with
  | nil =>
    rw [hcase] at henclosing
    cases henclosing
  | cons s rest =>
    rw [hcase] at henclosing
    rw [Exec.run_bind, run_exitFunction hcase] at hrun
    obtain ⟨rfl, hlt, rfl⟩ := run_pushProto_eq_ok hrun
    have hscopes : c'.scopes = c'.current :: s :: rest := by rw [scopes, hcase]
    have hvalid := h.valid
    have hs : c.current.Captures s := (List.forall₂_cons.mp henclosing).1
    obtain ⟨more, hmore⟩ := hs
    have hwired := hvalid.wired
    have hnodup := hvalid.nodup
    have hpools := hvalid.pools
    rw [hscopes] at hwired hnodup hpools
    have hemission : c.Emission [] (captured [.closure c.env.current.visible params code])
        { c' with
          current := s, enclosing := rest, prototypes := c'.prototypes ++ [c'.current.finish] } := by
      refine .of_grown ⟨⟨hwired.1, (List.forall_mem_cons.mp hnodup).2,
        (List.forall_mem_cons.mp hpools).2, by simp⟩, ⟨[], by simp [hmore], trivial⟩, ?_, ?_, ?_, ?_,
        (List.forall₂_cons.mp henclosing).2, fun k name => ?_⟩ (by simp [hmore]) List.not_mem_nil
      · simp [hmore]
      · exact h.prototypes.trans (List.prefix_append ..)
      · simp [hmore]
      · simp [hmore]
      · have hnames := h.names (k + 1) name
        rw [hscopes] at hnames
        rw [names_closure]
        exact hnames
    refine ⟨hemission, env_captures henclosing, ?_⟩
    obtain ⟨instrs, hcode, hasm⟩ := h.emitted
    refine ⟨⟨c'.prototypes.length, c'.current.finish, c'.current.names, rfl,
      List.length_pos_iff.mpr hvalid.chunk, hlt, List.getElem?_concat_length .., ?_, ?_,
      (List.forall_mem_cons.mp hnodup).1, fun name => ?_, h.inLoop rfl,
      takenFrom_source ⟨more, hmore⟩ hwired.2, ?_⟩, trivial⟩
    · rw [← hparams]
      exact h.paramCount
    · rw [FunctionScope.names, List.length_map]
      rfl
    · have hnames := h.names 0 name
      rw [hscopes] at hnames
      refine hnames.trans ⟨?_, ?_⟩
      · rintro (hmem | ⟨level, -, hmem⟩)
        · cases hmem
        · exact ⟨level, hmem⟩
      · rintro ⟨level, hmem⟩
        exact .inr ⟨level, captures_pos hmem, hmem⟩
    · have hcode' : c'.current.finish.code = instrs := hcode
      rw [hcode']
      exact Assembled.mono (Extends.of_prefix (List.prefix_append ..)) List.prefix_rfl
        List.prefix_rfl hasm

/-- Wherever the computation succeeds it has compiled the function that is generated. -/
def EmitsClosure (m : Codegen UInt16) (g : Gen Asm) : Prop :=
  ∀ c c' idx, c.Valid → m.run c = (.ok idx, c') →
    c.Emission [] (captured [(g c.env).1]) c' ∧ c'.env = (g c.env).2 ∧
      c'.Assembles [(g c.env).1] [.closure idx] ∧ (g c.env).1 ≠ .breakOut

variable (line) in
theorem emits_closure {m : Codegen UInt16} {g : Gen Asm} (hm : EmitsClosure m g) :
    Emits (m >>= fun idx => emitAll line [.closure idx]) (Gen.funcDef g) := by
  intro c c' hvalid hrun
  obtain ⟨idx, mid, hrun₁, hrun₂⟩ := Exec.run_bind_eq_ok.mp hrun
  obtain ⟨h₁, henv₁, hasm, hne⟩ := hm c mid idx hvalid hrun₁
  obtain ⟨h₂, henv₂⟩ := emission_emitAll h₁.valid hasm
    (fun h => hne (List.mem_singleton.mp h).symm) hrun₂
  have h₁₂ := h₁.trans h₂
  rw [Set.union_empty] at h₁₂
  exact ⟨h₁₂, henv₂.trans henv₁⟩

/-- A function that does not end with a return returns nothing at its end. -/
theorem emission_withRet {mid : Compiler} (hcode : c.current.proto.code = [])
    (h : c.Emission code (captured code) mid)
    (hrun : (if endsInRet mid.current.proto.code then pure ()
      else emitAll line [.ret 0]).run mid = (.ok (), c')) :
    c.Emission (Gen.withRet code) (captured (Gen.withRet code)) c' ∧ c'.env = mid.env := by
  obtain ⟨instrs, hinstrs, hasm⟩ := h.emitted
  rw [hinstrs, hcode, List.nil_append, hasm.endsInRet] at hrun
  rw [Gen.withRet]
  split_ifs at hrun ⊢ with hret
  · cases hrun
    exact ⟨h, rfl⟩
  · have hasm' : mid.Assembles [.plain (.ret 0)] [.ret 0] := ⟨rfl, trivial⟩
    have hnone : captured [.plain (.ret 0)] = ∅ := captured_of_closed (closed_plain [.ret 0])
    obtain ⟨h', henv⟩ := emission_emitAll h.valid hasm' (by simp) hrun
    have htrans := h.trans h'
    rw [Set.union_empty] at htrans
    rw [captured_append, hnone, Set.union_empty]
    exact ⟨htrans, henv⟩

theorem unless_then {α : Type} (b : Bool) (m : Codegen Unit) (k : Codegen α) :
    (if b then k else m >>= fun _ => k) = (if b then pure () else m) >>= fun _ => k := by
  split_ifs <;> rfl

theorem emitsClosure_compileFunctionBody {extraParams : List Bytes} {params : List (Bytes × Span)}
    {m : Codegen Unit} {g : Gen (List Asm)} (hm : Emits m g) :
    EmitsClosure (compileFunctionBody extraParams params m line)
      (Gen.functionBody (extraParams ++ params.map (·.1)) g) := by
  intro c c' idx hvalid hrun
  have hparams : extraParams.length + params.length =
      (extraParams ++ params.map (·.1)).length := by simp
  rw [compileFunctionBody, hparams, Exec.run_bind] at hrun
  set names := extraParams ++ params.map (·.1)
  have henter : (enterFunction (.ofNat names.length)).run c =
      (.ok (), c.entered (.ofNat names.length)) := rfl
  rw [henter] at hrun
  dsimp only at hrun
  obtain ⟨_, c₁, hrun₁, hrun⟩ := Exec.run_bind_eq_ok.mp hrun
  obtain ⟨-, h₁, henv₁⟩ := does_registerParams names 0 _ c₁ _ (hvalid.entered _) hrun₁
  obtain ⟨_, c₂, hrun₂, hrun⟩ := Exec.run_bind_eq_ok.mp hrun
  have h₂ := hm c₁ c₂ h₁.valid hrun₂
  have h₁₂ := h₁.trans h₂.emission
  rw [List.nil_append, Set.empty_union, henv₁] at h₁₂
  obtain ⟨scope, mid, hscope, hrun⟩ := Exec.run_bind_eq_ok.mp hrun
  cases hscope
  rw [unless_then] at hrun
  obtain ⟨_, c₃, hrun₃, hrun⟩ := Exec.run_bind_eq_ok.mp hrun
  obtain ⟨h₃, henv₃⟩ := emission_withRet rfl h₁₂ hrun₃
  rw [← Exec.bind_assoc] at hrun
  obtain ⟨n, c₄, hrun₄, hpure⟩ := Exec.run_bind_eq_ok.mp hrun
  cases hpure
  obtain ⟨h₄, henv₄, hasm⟩ := emission_exitFunction rfl h₃ hrun₄
  exact ⟨h₄, henv₄, hasm, nofun⟩

end Compiler

end Proveno
