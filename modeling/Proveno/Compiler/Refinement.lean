import Proveno.Compiler.Emission

/-! The code generator emits instructions that carry out the symbolic code of what it
compiles, construct by construct. -/

namespace Proveno

open List (Forall₂)

def captured (code : List Asm) : Set (Bytes × Nat) := {p | p ∈ captures code}

theorem captured_append (code rest : List Asm) :
    captured (code ++ rest) = captured code ∪ captured rest := by
  ext p
  simp [captured, captures_append]

theorem captured_nil : captured [] = ∅ := by
  ext p
  simp [captured, captures]

/-- Code that uses no variables of functions around and does not leave a loop. -/
structure Closed (code : List Asm) : Prop where
  captures : captures code = []
  breaks : .breakOut ∉ code

namespace Compiler

variable {c c' c'' : Compiler} {code rest : List Asm} {A B : Set (Bytes × Nat)} {line : UInt32}

/-- Since a state what is generated has been emitted. -/
structure Emitted (c : Compiler) (g : Gen (List Asm)) (c' : Compiler) : Prop where
  emission : c.Emission (g c.env).1 (captured (g c.env).1) c'
  env : c'.env = (g c.env).2

theorem Emitted.valid {g : Gen (List Asm)} (h : c.Emitted g c') : c'.Valid :=
  h.emission.valid

theorem Emitted.seq {g k : Gen (List Asm)} (h : c.Emitted g c') (h' : c'.Emitted k c'') :
    c.Emitted (Gen.seq g k) c'' := by
  have hcode : ((Gen.seq g k) c.env).1 = (g c.env).1 ++ (k (g c.env).2).1 := rfl
  refine ⟨?_, ?_⟩
  · rw [hcode, captured_append, ← h.env]
    exact h.emission.trans h'.emission
  · rw [h'.env, h.env]
    rfl

theorem Emitted.after {g : Gen (List Asm)} (h : c.Emission [] ∅ c') (henv : c'.env = c.env)
    (h' : c'.Emitted g c'') : c.Emitted g c'' := by
  refine ⟨?_, ?_⟩
  · have hemission := h.trans h'.emission
    rwa [List.nil_append, Set.empty_union, henv] at hemission
  · rw [h'.env, henv]

theorem Emitted.of_code (h : c.Emission code A c') (hA : captured code = A)
    (henv : c'.env = c.env) : c.Emitted (pure code) c' :=
  ⟨hA ▸ h, henv⟩

/-- Wherever the computation succeeds it emits what is generated. -/
def Emits (m : Codegen Unit) (g : Gen (List Asm)) : Prop :=
  ∀ c c', c.Valid → m.run c = (.ok (), c') → c.Emitted g c'

/-- Wherever the computation succeeds it has the value that is generated, and emits nothing. -/
def Does {α : Type} (m : Codegen α) (g : Gen α) : Prop :=
  ∀ c c' a, c.Valid → m.run c = (.ok a, c') →
    a = (g c.env).1 ∧ c.Emission [] ∅ c' ∧ c'.env = (g c.env).2

namespace Emits

variable {m k : Codegen Unit} {g h : Gen (List Asm)}

theorem seq (hm : Emits m g) (hk : Emits k h) : Emits (m >>= fun _ => k) (Gen.seq g h) := by
  intro c c' hvalid hrun
  obtain ⟨_, mid, hrun₁, hrun₂⟩ := Exec.run_bind_eq_ok.mp hrun
  have h₁ := hm c mid hvalid hrun₁
  exact h₁.seq (hk mid c' h₁.valid hrun₂)

theorem bind {α : Type} {n : Codegen α} {f : Gen α} {k : α → Codegen Unit}
    {h : α → Gen (List Asm)} (hn : Does n f) (hk : ∀ a, Emits (k a) (h a)) :
    Emits (n >>= k) (f >>= h) := by
  intro c c' hvalid hrun
  obtain ⟨a, mid, hrun₁, hrun₂⟩ := Exec.run_bind_eq_ok.mp hrun
  obtain ⟨rfl, h₁, henv⟩ := hn c mid a hvalid hrun₁
  have h₂ := hk _ mid c' h₁.valid hrun₂
  have hcode : ((f >>= h) c.env).1 = (h (f c.env).1 (f c.env).2).1 := rfl
  refine ⟨?_, ?_⟩
  · rw [hcode, ← henv]
    have h₃ := h₁.trans h₂.emission
    rwa [List.nil_append, Set.empty_union] at h₃
  · rw [h₂.env, henv]
    rfl

theorem fail {e : CompileError} : Emits (Compiler.fail e) g := by
  intro c c' _ hrun
  cases hrun

theorem panic : Emits (Exec.throw .panicked) g := by
  intro c c' _ hrun
  cases hrun

theorem pure : Emits (Pure.pure ()) (Pure.pure []) := by
  intro c c' hvalid hrun
  cases hrun
  exact .of_code (.refl hvalid) captured_nil rfl

end Emits

theorem run_emitAll (line : UInt32) (instrs : List Instruction) (c : Compiler) :
    (emitAll line instrs).run c = (.ok (), { c with
      current := { c.current with
        proto := { c.current.proto with
          code := c.current.proto.code ++ instrs
          lines := c.current.proto.lines ++ List.replicate instrs.length line } }
      points := c.points ++ List.replicate instrs.length c.current.point }) := by
  induction instrs generalizing c with
  | nil => simp [emitAll]
  | cons instr rest ih =>
    rw [emitAll, Exec.run_bind, emit]
    dsimp only
    rw [ih]
    simp [List.replicate_succ, FunctionScope.point]

/-- Instructions that carry out some code are emitted. -/
theorem emission_emitAll (h : c.Valid) {line : UInt32} {instrs : List Instruction}
    (hasm : c.Assembles code instrs) (hbreaks : .breakOut ∉ code)
    (hrun : (emitAll line instrs).run c = (.ok (), c')) :
    c.Emission code ∅ c' ∧ c'.env = c.env := by
  rw [run_emitAll] at hrun
  cases hrun
  exact ⟨.of_grown (.of_work h rfl List.prefix_rfl rfl h.pool rfl hasm) rfl hbreaks, rfl⟩

theorem emits_code {line : UInt32} {instrs : List Instruction} (hclosed : Closed code)
    (hasm : ∀ prototypes constants names, Assembled prototypes constants names code instrs) :
    Emits (emitAll line instrs) (pure code) := by
  intro c c' hvalid hrun
  obtain ⟨hemission, henv⟩ := emission_emitAll hvalid (hasm _ _ _) hclosed.breaks hrun
  refine .of_code hemission ?_ henv
  ext p
  simp [captured, hclosed.captures]

theorem closed_plain (instrs : List Instruction) : Closed (instrs.map .plain) := by
  refine ⟨?_, by simp⟩
  induction instrs with
  | nil => rfl
  | cons instr rest ih =>
    rw [List.map_cons, captures, ih]
    rfl

theorem assembled_plain (prototypes : List FunctionProto) (constants : List Constant)
    (names : List Bytes) (instrs : List Instruction) :
    Assembled prototypes constants names (instrs.map .plain) instrs := by
  induction instrs with
  | nil => trivial
  | cons instr rest ih => exact ⟨rfl, ih⟩

theorem emits_plain (line : UInt32) (instrs : List Instruction) :
    Emits (emitAll line instrs) (pure (instrs.map .plain)) :=
  emits_code (closed_plain instrs) fun _ _ _ => assembled_plain _ _ _ instrs

/-- A constant has its place in the pool. -/
theorem emission_addConstant (h : c.Valid) {k : Constant} {line : UInt32} {idx : UInt16}
    (hrun : (addConstant k line).run c = (.ok idx, c')) :
    k.At c'.current.proto.constants idx ∧ c.Emission [] ∅ c' ∧ c'.env = c.env := by
  rw [addConstant, Exec.run_bind, currentScope] at hrun
  dsimp only at hrun
  cases hfind : c.current.proto.constants.findIdx? (· = k) with
  | some i =>
    rw [hfind] at hrun
    cases hrun
    obtain ⟨hlt, heq, -⟩ := List.findIdx?_eq_some_iff_getElem.mp hfind
    refine ⟨⟨i, ?_, hlt.trans_le h.pool, rfl⟩, .refl h, rfl⟩
    rw [List.getElem?_eq_getElem hlt, of_decide_eq_true heq]
  | none =>
    rw [hfind] at hrun
    dsimp only at hrun
    split_ifs at hrun with hfull
    · cases hrun
    · cases hrun
      have hpool : (c.current.proto.constants ++ [k]).length ≤ 65535 := by
        rw [List.length_append, List.length_singleton]
        omega
      have hasm : Assembled c.prototypes (c.current.proto.constants ++ [k]) c.current.names [] [] :=
        trivial
      exact ⟨⟨_, List.getElem?_concat_length .., by omega, rfl⟩,
        .of_grown (.of_work h (List.append_nil _).symm (List.prefix_append ..) rfl hpool rfl hasm)
          rfl List.not_mem_nil, rfl⟩

theorem captured_of_closed (h : Closed code) : captured code = ∅ := by
  ext p
  simp [captured, h.captures]

theorem closed_constant (k : Constant) : Closed [.constant k] := ⟨rfl, by simp⟩

theorem assembled_constant (k : Constant) (prototypes : List FunctionProto)
    (constants : List Constant) (names : List Bytes) (idx : UInt16) (h : k.At constants idx) :
    Assembled prototypes constants names [.constant k] [.pushK idx] :=
  ⟨⟨idx, h, rfl⟩, trivial⟩

section Constants

variable {k : Constant} {line line' : UInt32} {instrs : UInt16 → List Instruction}

variable (k line line' instrs code) in
/-- Code that refers to a constant, which has its place in the pool before other code is
emitted. -/
theorem emits_around_constant {m : Codegen Unit} {g : Gen (List Asm)} (hm : Emits m g)
    (hclosed : Closed code)
    (hasm : ∀ prototypes constants names idx, k.At constants idx →
      Assembled prototypes constants names code (instrs idx)) :
    Emits (do
      let idx ← addConstant k line
      m
      emitAll line' (instrs idx)) (Gen.seq g (pure code)) := by
  intro c c' hvalid hrun
  obtain ⟨idx, c₁, hrun₁, hrun⟩ := Exec.run_bind_eq_ok.mp hrun
  obtain ⟨hat, h₁, henv₁⟩ := emission_addConstant hvalid hrun₁
  obtain ⟨_, c₂, hrun₂, hrun₃⟩ := Exec.run_bind_eq_ok.mp hrun
  have h₂ := hm c₁ c₂ h₁.valid hrun₂
  obtain ⟨h₃, henv₃⟩ := emission_emitAll h₂.valid
    (hasm _ _ _ idx (hat.mono h₂.emission.constants)) hclosed.breaks hrun₃
  have h₁₂ := h₁.trans h₂.emission
  rw [List.nil_append, Set.empty_union, henv₁] at h₁₂
  refine Emitted.seq ⟨h₁₂, henv₁ ▸ h₂.env⟩ (.of_code h₃ (captured_of_closed hclosed) henv₃)

/-- Code that refers to a constant. -/
theorem emits_constant (hclosed : Closed code)
    (hasm : ∀ prototypes constants names idx, k.At constants idx →
      Assembled prototypes constants names code (instrs idx)) :
    Emits (addConstant k line >>= fun idx => emitAll line' (instrs idx)) (pure code) :=
  emits_around_constant code k line line' instrs (m := pure ()) .pure hclosed hasm

end Constants

/-- Wherever the computation succeeds from such a state it emits what is generated. -/
def EmitsWhen (P : Compiler → Prop) (m : Codegen Unit) (g : Gen (List Asm)) : Prop :=
  ∀ c c', P c → c.Valid → m.run c = (.ok (), c') → c.Emitted g c'

theorem Emits.when {P : Compiler → Prop} {m : Codegen Unit} {g : Gen (List Asm)}
    (hm : Emits m g) : EmitsWhen P m g :=
  fun c c' _ hvalid hrun => hm c c' hvalid hrun

/-- It holds of every later state. -/
def Stable (P : Compiler → Prop) : Prop := ∀ c c' code A, P c → c.Grown code A c' → P c'

section When

variable {P : Compiler → Prop} {m k : Codegen Unit} {g h : Gen (List Asm)}

theorem EmitsWhen.seq (hP : Stable P) (hm : EmitsWhen P m g) (hk : EmitsWhen P k h) :
    EmitsWhen P (m >>= fun _ => k) (Gen.seq g h) := by
  intro c c' hc hvalid hrun
  obtain ⟨_, mid, hrun₁, hrun₂⟩ := Exec.run_bind_eq_ok.mp hrun
  have h₁ := hm c mid hc hvalid hrun₁
  exact h₁.seq (hk mid c' (hP _ _ _ _ hc h₁.emission.toGrown) h₁.valid hrun₂)

theorem EmitsWhen.bind (hP : Stable P) {α : Type} {n : Codegen α} {f : Gen α}
    {k : α → Codegen Unit} {h : α → Gen (List Asm)} (hn : Does n f)
    (hk : ∀ a, EmitsWhen P (k a) (h a)) : EmitsWhen P (n >>= k) (f >>= h) := by
  intro c c' hc hvalid hrun
  obtain ⟨a, mid, hrun₁, hrun₂⟩ := Exec.run_bind_eq_ok.mp hrun
  obtain ⟨rfl, h₁, henv⟩ := hn c mid a hvalid hrun₁
  have h₂ := hk _ mid c' (hP _ _ _ _ hc h₁.toGrown) h₁.valid hrun₂
  have hcode : ((f >>= h) c.env).1 = (h (f c.env).1 (f c.env).2).1 := rfl
  refine ⟨?_, ?_⟩
  · rw [hcode, ← henv]
    have h₃ := h₁.trans h₂.emission
    rwa [List.nil_append, Set.empty_union] at h₃
  · rw [h₂.env, henv]
    rfl

end When

section Names

variable {name : Bytes} {x : Var} {var : VarRef}

theorem run_resolveVar (name : Bytes) (c : Compiler) :
    (resolveVar name).run c = (.ok (c.resolve name).1, (c.resolve name).2) := rfl

theorem mem_captures_load {p : Bytes × Nat} :
    p ∈ (Asm.load x).captures ↔ x.level ≠ 0 ∧ p = (x.decl.name, x.level) := by
  unfold Asm.captures
  split_ifs with hlevel <;> simp [hlevel]

theorem captured_load (x : Var) : captured [.load x] = {p | p ∈ (Asm.load x).captures} := by
  ext p
  simp [captured, captures]

theorem captured_store (x : Var) : captured [.store x] = captured [.load x] := rfl

theorem emission_resolve (h : c.Valid) (hx : c.env.resolve name = some x) :
    c.Emission [] (captured [.load x]) (c.resolve name).2 := by
  have hresolve := Emission.resolve h name
  rw [captured_load]
  convert hresolve using 1
  ext p
  simp [hx]

theorem emission_resolve_none (h : c.Valid) (hx : c.env.resolve name = none) :
    c.Emission [] ∅ (c.resolve name).2 := by
  have hresolve := Emission.resolve h name
  convert hresolve using 1
  ext p
  simp [hx]

theorem env_resolve (h : c.Valid) (name : Bytes) : (c.resolve name).2.env = c.env :=
  env_captures (resolve_source h.wired name).2.1

/-- The function has the variable, which it has been resolved to. -/
structure Known (x : Var) (var : VarRef) (c : Compiler) : Prop where
  place : x.level = 0 ∧ var = .local x.decl.slot ∨
    x.level ≠ 0 ∧ ∃ i, var = .upvalue (.ofNat i) ∧ c.current.names[i]? = some x.decl.name
  registered : ∀ p ∈ captured [.load x], ∀ k < p.2, p.1 ∈ namesAt c.scopes k

theorem Known.of_resolve (h : c.Valid) (hx : c.env.resolve name = some x) :
    Known x (c.resolve name).1 (c.resolve name).2 := by
  refine ⟨resolve_ref h hx, fun p hp k hk => ?_⟩
  exact ((emission_resolve h hx).names k p.1).mpr (.inr ⟨p.2, hk, hp⟩)

theorem Known.stable (x : Var) (var : VarRef) : Stable (Known x var) := by
  intro c c' code A h hgrown
  refine ⟨h.place.imp_right fun ⟨hlevel, i, hvar, hget⟩ => ⟨hlevel, i, hvar, ?_⟩,
    fun p hp k hk => (hgrown.names k p.1).mpr (.inl (h.registered p hp k hk))⟩
  obtain ⟨more, hmore⟩ := hgrown.prefix_names
  rw [← hmore, List.getElem?_append_left (List.getElem?_eq_some_iff.mp hget).1, hget]

/-- The variable is accessed by its place. -/
theorem Known.emission (h : Known x var c) (hvalid : c.Valid) {k : Codegen Unit}
    {slot upvalue : UInt8 → Instruction} {asm : Asm} (hcaptures : captured [asm] = captured [.load x])
    (hasm : ∀ instr, x.Accessed c.current.names slot upvalue instr →
      asm.Assembled c.prototypes c.current.proto.constants c.current.names instr)
    (hbreak : asm ≠ .breakOut)
    (hrun : (match var with
      | .local s => emitAll line [slot s]
      | .upvalue i => emitAll line [upvalue i]
      | .global => k).run c = (.ok (), c')) :
    c.Emitted (pure [asm]) c' := by
  have hemit (instr : Instruction) (haccess : x.Accessed c.current.names slot upvalue instr)
      (hrun : (emitAll line [instr]).run c = (.ok (), c')) : c.Emitted (pure [asm]) c' := by
    have hassembles : c.Assembles [asm] [instr] := ⟨hasm instr haccess, trivial⟩
    obtain ⟨hemission, henv⟩ :=
      emission_emitAll hvalid hassembles (fun hmem => hbreak (List.mem_singleton.mp hmem).symm) hrun
    refine ⟨{ hemission with names := fun k name => ?_ }, henv⟩
    have hnames := hemission.names k name
    simp only [Set.mem_empty_iff_false, and_false, exists_false, or_false] at hnames
    rw [hnames]
    refine ⟨.inl, fun hmem => hmem.elim id fun ⟨level, hk, hmem⟩ => ?_⟩
    exact h.registered (name, level) (hcaptures ▸ hmem) k hk
  rcases h.place with ⟨hlevel, rfl⟩ | ⟨hlevel, i, rfl, hget⟩
  · refine hemit _ ?_ hrun
    rw [Var.Accessed, if_pos hlevel]
  · refine hemit _ ?_ hrun
    rw [Var.Accessed, if_neg hlevel]
    exact ⟨i, hget, rfl⟩

theorem emitsWhen_load {k : Codegen Unit} :
    EmitsWhen (Known x var) (match var with
      | .local s => emitAll line [.loadLocal s]
      | .upvalue i => emitAll line [.loadUp i]
      | .global => k) (pure [.load x]) :=
  fun _ _ hknown hvalid hrun => hknown.emission hvalid rfl (fun _ h => h) nofun hrun

theorem emitsWhen_store {k : Codegen Unit} :
    EmitsWhen (Known x var) (match var with
      | .local s => emitAll line [.storeLocal s]
      | .upvalue i => emitAll line [.storeUp i]
      | .global => k) (pure [.store x]) :=
  fun _ _ hknown hvalid hrun => hknown.emission hvalid rfl (fun _ h => h) nofun hrun

/-- What is done with a variable, after its name has been resolved. -/
theorem emits_resolve {k : VarRef → Codegen Unit} {h : Option Var → Gen (List Asm)}
    (hsome : ∀ x var, EmitsWhen (Known x var) (k var) (h (some x)))
    (huses : ∀ x env, captured [.load x] ⊆ captured (h (some x) env).1)
    (hnone : Emits (k .global) (h none)) :
    Emits (resolveVar name >>= k) (get >>= fun env => h (env.resolve name)) := by
  intro c c' hvalid hrun
  rw [Exec.run_bind, run_resolveVar] at hrun
  dsimp only at hrun
  have hvalid' : (c.resolve name).2.Valid := (Grown.resolve hvalid name).valid
  have henv := env_resolve hvalid name
  have hgen : (get >>= fun env => h (env.resolve name) : Gen (List Asm)) c.env =
      h (c.env.resolve name) c.env := rfl
  cases hx : c.env.resolve name with
  | some x =>
    rw [hx] at hgen
    have hrest := hsome x _ _ c' (.of_resolve hvalid hx) hvalid' hrun
    have hemission := (emission_resolve hvalid hx).trans hrest.emission
    rw [List.nil_append, henv, Set.union_eq_self_of_subset_left (huses x c.env)] at hemission
    refine ⟨hgen ▸ hemission, ?_⟩
    rw [hrest.env, hgen, henv]
  | none =>
    rw [hx] at hgen
    rw [resolve_global hvalid hx] at hrun
    have hrest := Emitted.after (emission_resolve_none hvalid hx) henv (hnone _ c' hvalid' hrun)
    exact ⟨hgen ▸ hrest.emission, hgen ▸ hrest.env⟩

theorem emits_resolved {k : VarRef → Codegen Unit} {g n : Gen (List Asm)} {s : Var → Gen (List Asm)}
    (hg : g = (get >>= fun env => (env.resolve name).elim n s))
    (hsome : ∀ x var, EmitsWhen (Known x var) (k var) (s x))
    (huses : ∀ x env, captured [.load x] ⊆ captured (s x env).1) (hnone : Emits (k .global) n) :
    Emits (resolveVar name >>= k) g := by
  rw [hg]
  exact emits_resolve (h := fun o => o.elim n s) hsome huses hnone

theorem emits_compileName : Emits (compileName name line) (Gen.name name) := by
  unfold compileName
  by_cases htool : name = ascii "tool"
  · rw [if_pos htool]
    exact .fail
  by_cases hiter : (iterKindOf name).isSome
  · rw [if_neg htool, if_pos hiter]
    exact .fail
  rw [if_neg htool, if_neg hiter]
  have hglobal : Emits (if name ∈ builtinNames then do
      let idx ← addStringConstant (sentinel name) line
      emitAll line [.pushK idx] else fail (.unknownGlobal name line))
      (pure [.constant (.string (sentinel name))]) := by
    split_ifs
    · exact emits_constant (closed_constant _) (assembled_constant _)
    · exact .fail
  refine emits_resolved (s := fun x => pure [.load x]) (congrArg _ (funext fun env => ?_))
    (fun x var => emitsWhen_load) (fun x env => subset_rfl) hglobal
  cases env.resolve name <;> rfl

end Names

end Compiler

end Proveno
