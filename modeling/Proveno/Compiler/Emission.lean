import Proveno.Compiler.Assembly

/-! What the code generator has done since some state: the code it has emitted and the
upvalues that the functions have taken, while the pools of constants, of upvalues and of
prototypes only grow. -/

namespace Proveno

open List (Forall₂)

def FunctionScope.names (s : FunctionScope) : List Bytes := s.upvalues.map (·.1)

theorem FunctionScope.nodup_names_concat {s : FunctionScope} {name : Bytes}
    (h : s.names.Nodup) (hnone : s.findUpvalue name = none) (desc : UpvalueDesc) :
    ((s.upvalues ++ [(name, desc)]).map (·.1)).Nodup := by
  rw [List.map_append, List.nodup_append]
  refine ⟨h, List.nodup_singleton _, fun a ha b hb => ?_⟩
  obtain rfl := List.mem_singleton.mp hb
  rintro rfl
  obtain ⟨u, hu, rfl⟩ := List.mem_map.mp ha
  exact findUpvalue_eq_none hnone u.2 hu

def FunctionScope.locals (s : FunctionScope) : Locals :=
  ⟨s.blocks, s.nextSlot, s.breakPatches.map (·.1)⟩

namespace Compiler

def env (c : Compiler) : Env := ⟨c.current.locals, c.enclosing.map (·.locals)⟩

def codeLen (c : Compiler) : Nat := c.current.proto.code.length

/-- The names of the upvalues of the function that is so many functions out. -/
def namesAt (ss : List FunctionScope) (k : Nat) : List Bytes := (ss[k]?.map (·.names)).getD []

def Assembles (c : Compiler) : List Asm → List Instruction → Prop :=
  Assembled c.prototypes c.current.proto.constants c.current.names

theorem mem_namesAt_cons (s : FunctionScope) (ss : List FunctionScope) (k : Nat) :
    namesAt (s :: ss) (k + 1) = namesAt ss k := rfl

section Resolve

variable {ss ss' : List FunctionScope} {name : Bytes} {desc : UpvalueDesc} {n : Nat} {v : LocalVar}

/-- A variable that is taken from the function around is an upvalue of every function up to
the one that declares it. -/
theorem Wired.registered (h : Wired ss) (hsource : Source ss (name, desc))
    (hvisible : Compiler.visible name ss = some (n, v)) {k : Nat} (hk : k < n) :
    name ∈ namesAt ss k := by
  induction ss generalizing desc n k with
  | nil => exact hsource.elim
  | cons s rest ih =>
    rw [Compiler.visible] at hvisible
    rw [Source] at hsource
    cases hfind : s.findLocal name with
    | some w =>
      rw [hfind] at hvisible
      cases hvisible
      omega
    | none =>
      rw [hfind] at hvisible hsource
      obtain ⟨i, desc', hget, -⟩ := hsource
      obtain ⟨⟨n', v'⟩, hrest, heq⟩ := Option.map_eq_some_iff.mp hvisible
      cases heq
      have hmem := List.mem_of_getElem? hget
      cases k with
      | zero => exact List.mem_map.mpr ⟨_, hmem, rfl⟩
      | succ k => exact ih h.1 (h.2 _ hmem) hrest (by omega)

/-- A search of the functions around makes the variable an upvalue of every function up to
the one that declares it. -/
theorem names_findUpvalueInEnclosing (h : Wired ss) (hvisible : visible name ss = some (n, v))
    (hfound : findUpvalueInEnclosing name ss = some (desc, ss')) (k : Nat) (m : Bytes) :
    m ∈ namesAt ss' k ↔ m ∈ namesAt ss k ∨ m = name ∧ k < n := by
  induction ss generalizing desc ss' n k with
  | nil => cases hvisible
  | cons s rest ih =>
    rw [visible] at hvisible
    rw [findUpvalueInEnclosing] at hfound
    cases hfind : s.findLocal name with
    | some w =>
      rw [hfind] at hvisible hfound
      cases hvisible
      cases hfound
      simp
    | none =>
      rw [hfind] at hvisible hfound
      obtain ⟨⟨n', v'⟩, hrest, heq⟩ := Option.map_eq_some_iff.mp hvisible
      cases heq
      cases hup : s.findUpvalue name with
      | some i =>
        rw [hup] at hfound
        cases hfound
        obtain ⟨desc', hget⟩ := FunctionScope.findUpvalue_eq_some hup
        have hmem := List.mem_of_getElem? hget
        refine ⟨.inl, fun hm => hm.elim id ?_⟩
        rintro ⟨rfl, hk⟩
        cases k with
        | zero => exact List.mem_map.mpr ⟨_, hmem, rfl⟩
        | succ k => exact h.1.registered (h.2 _ hmem) hrest (by omega)
      | none =>
        rw [hup] at hfound
        obtain ⟨⟨desc', rest'⟩, hfound', heq⟩ := Option.map_eq_some_iff.mp hfound
        cases heq
        cases k with
        | zero => simp [namesAt, FunctionScope.names, or_comm]
        | succ k =>
          rw [mem_namesAt_cons, mem_namesAt_cons, ih h.1 hrest hfound', Nat.add_lt_add_iff_right]

theorem nodup_findUpvalueInEnclosing (h : ∀ s ∈ ss, s.names.Nodup)
    (hfound : findUpvalueInEnclosing name ss = some (desc, ss')) : ∀ s ∈ ss', s.names.Nodup := by
  induction ss generalizing desc ss' with
  | nil => cases hfound
  | cons s rest ih =>
    rw [findUpvalueInEnclosing] at hfound
    cases hfind : s.findLocal name with
    | some w =>
      rw [hfind] at hfound
      cases hfound
      exact h
    | none =>
      rw [hfind] at hfound
      cases hup : s.findUpvalue name with
      | some i =>
        rw [hup] at hfound
        cases hfound
        exact h
      | none =>
        rw [hup] at hfound
        obtain ⟨⟨desc', rest'⟩, hfound', heq⟩ := Option.map_eq_some_iff.mp hfound
        cases heq
        refine List.forall_mem_cons.mpr ⟨?_, ih (fun t ht => h t (List.mem_cons_of_mem _ ht)) hfound'⟩
        exact FunctionScope.nodup_names_concat (h s List.mem_cons_self) hup desc'

theorem visible_name {ss : List FunctionScope} {name : Bytes} {n : Nat} {v : LocalVar}
    (h : visible name ss = some (n, v)) : v.name = name := by
  induction ss generalizing n with
  | nil => cases h
  | cons s rest ih =>
    rw [visible] at h
    cases hfind : s.findLocal name with
    | some w =>
      rw [hfind] at h
      cases h
      simpa using List.find?_some hfind
    | none =>
      rw [hfind] at h
      obtain ⟨⟨n', v'⟩, hrest, heq⟩ := Option.map_eq_some_iff.mp h
      cases heq
      exact ih hrest

theorem pools_captures (h : Forall₂ FunctionScope.Captures ss ss')
    (hpools : ∀ s ∈ ss, s.proto.constants.length ≤ 65535) :
    ∀ s ∈ ss', s.proto.constants.length ≤ 65535 := by
  induction h with
  | nil => exact hpools
  | cons hs _ ih =>
    obtain ⟨more, rfl⟩ := hs
    rw [List.forall_mem_cons] at hpools ⊢
    exact ⟨hpools.1, ih hpools.2⟩

end Resolve

structure Valid (c : Compiler) : Prop where
  wired : Wired c.scopes
  nodup : ∀ s ∈ c.scopes, s.names.Nodup
  pools : ∀ s ∈ c.scopes, s.proto.constants.length ≤ 65535
  chunk : c.prototypes ≠ []

section Work

variable {c c' : Compiler}

/-- Work in the innermost function that leaves its upvalues as they are. -/
theorem Valid.work (h : c.Valid) (hup : c'.current.upvalues = c.current.upvalues)
    (hpool : c'.current.proto.constants.length ≤ 65535)
    (henclosing : c'.enclosing = c.enclosing) (hprototypes : c'.prototypes = c.prototypes) :
    c'.Valid := by
  refine ⟨⟨henclosing ▸ h.wired.1, fun u hu => henclosing ▸ h.wired.2 u (hup ▸ hu)⟩, ?_, ?_,
    hprototypes ▸ h.chunk⟩
  · rw [scopes, henclosing]
    refine List.forall_mem_cons.mpr ⟨?_, fun t ht => h.nodup t (List.mem_cons_of_mem _ ht)⟩
    have hnodup := h.nodup c.current List.mem_cons_self
    rwa [FunctionScope.names, ← hup] at hnodup
  · rw [scopes, henclosing]
    exact List.forall_mem_cons.mpr ⟨hpool, fun t ht => h.pools t (List.mem_cons_of_mem _ ht)⟩

theorem Valid.pool (h : c.Valid) : c.current.proto.constants.length ≤ 65535 :=
  h.pools _ List.mem_cons_self

theorem namesAt_work (hup : c'.current.upvalues = c.current.upvalues)
    (henclosing : c'.enclosing = c.enclosing) (k : Nat) :
    namesAt c'.scopes k = namesAt c.scopes k := by
  cases k with
  | zero => simp [namesAt, scopes, FunctionScope.names, hup]
  | succ k => simp [namesAt, scopes, henclosing]

theorem names_work {P : Nat → Bytes → Prop} (hup : c'.current.upvalues = c.current.upvalues)
    (henclosing : c'.enclosing = c.enclosing)
    (h : ∀ k name, name ∈ namesAt c.scopes k ↔ P k name) (k : Nat) (name : Bytes) :
    name ∈ namesAt c'.scopes k ↔ P k name := by
  rw [namesAt_work hup henclosing, h]

end Work

/-- Since a state the code has been emitted and the variables have been captured. -/
structure Grown (c : Compiler) (code : List Asm) (captured : Set (Bytes × Nat)) (c' : Compiler) :
    Prop where
  valid : c'.Valid
  emitted : ∃ instrs, c'.current.proto.code = c.current.proto.code ++ instrs ∧ c'.Assembles code instrs
  constants : c.current.proto.constants <+: c'.current.proto.constants
  prototypes : c.prototypes <+: c'.prototypes
  paramCount : c'.current.proto.paramCount = c.current.proto.paramCount
  upvalues : c.current.upvalues <+: c'.current.upvalues
  enclosing : Forall₂ FunctionScope.Captures c.enclosing c'.enclosing
  names : ∀ k name, name ∈ namesAt c'.scopes k ↔
    name ∈ namesAt c.scopes k ∨ ∃ level, k < level ∧ (name, level) ∈ captured

theorem resolve_env (c : Compiler) (name : Bytes) :
    c.env.resolve name = (visible name c.scopes).map fun (n, v) => ⟨n, v⟩ := by
  have hlookup (ss : List FunctionScope) :
      Env.lookup name (ss.map (·.locals)) = (visible name ss).map fun (n, v) => (⟨n, v⟩ : Var) := by
    induction ss with
    | nil => rfl
    | cons s rest ih =>
      rw [List.map_cons, Env.lookup, visible, ih]
      have hfind : s.locals.find name = s.findLocal name := rfl
      rw [hfind]
      cases s.findLocal name with
      | some v => rfl
      | none => simp [Option.map_map, Function.comp_def]
  exact hlookup c.scopes

theorem visible_scopes (c : Compiler) (name : Bytes) :
    visible name c.scopes =
      match c.current.findLocal name with
      | some v => some (0, v)
      | none => (visible name c.enclosing).map fun (n, v) => (n + 1, v) :=
  rfl

namespace Grown

variable {c c' c'' : Compiler} {code rest : List Asm} {A B : Set (Bytes × Nat)}

theorem prefix_names (h : c.Grown code A c') : c.current.names <+: c'.current.names :=
  h.upvalues.map _

theorem assembles (h : c.Grown code A c') {asms : List Asm} {instrs : List Instruction}
    (hasm : c.Assembles asms instrs) : c'.Assembles asms instrs :=
  Assembled.mono (Extends.of_prefix h.prototypes) h.constants h.prefix_names hasm

theorem refl (h : c.Valid) : c.Grown [] ∅ c where
  valid := h
  emitted := ⟨[], by simp, trivial⟩
  constants := List.prefix_rfl
  prototypes := List.prefix_rfl
  paramCount := rfl
  upvalues := List.prefix_rfl
  enclosing := captures_refl _
  names := by simp

theorem trans (h : c.Grown code A c') (h' : c'.Grown rest B c'') :
    c.Grown (code ++ rest) (A ∪ B) c'' where
  valid := h'.valid
  emitted := by
    obtain ⟨instrs, hcode, hasm⟩ := h.emitted
    obtain ⟨instrs', hcode', hasm'⟩ := h'.emitted
    exact ⟨instrs ++ instrs', by rw [hcode', hcode, List.append_assoc],
      assembled_append.mpr ⟨instrs, instrs', rfl, h'.assembles hasm, hasm'⟩⟩
  constants := h.constants.trans h'.constants
  prototypes := h.prototypes.trans h'.prototypes
  paramCount := h'.paramCount.trans h.paramCount
  upvalues := h.upvalues.trans h'.upvalues
  enclosing := captures_trans h.enclosing h'.enclosing
  names := fun k name => by
    rw [h'.names, h.names, or_assoc]
    refine or_congr_right ⟨?_, ?_⟩
    · rintro (⟨level, hlt, hmem⟩ | ⟨level, hlt, hmem⟩)
      · exact ⟨level, hlt, .inl hmem⟩
      · exact ⟨level, hlt, .inr hmem⟩
    · rintro ⟨level, hlt, hmem | hmem⟩
      · exact .inl ⟨level, hlt, hmem⟩
      · exact .inr ⟨level, hlt, hmem⟩

theorem codeLen (h : c.Grown code A c') : c'.codeLen = c.codeLen + code.length := by
  obtain ⟨instrs, hcode, hasm⟩ := h.emitted
  rw [Compiler.codeLen, hcode, List.length_append, hasm.length_eq]
  rfl

/-- Work in the innermost function that leaves its upvalues as they are. -/
theorem of_work (h : c.Valid) {s : FunctionScope} {p : List Point}
    {instrs : List Instruction}
    (hcode : s.proto.code = c.current.proto.code ++ instrs)
    (hconstants : c.current.proto.constants <+: s.proto.constants)
    (hparams : s.proto.paramCount = c.current.proto.paramCount)
    (hpool : s.proto.constants.length ≤ 65535) (hup : s.upvalues = c.current.upvalues)
    (hasm : Assembled c.prototypes s.proto.constants c.current.names code instrs) :
    c.Grown code ∅ { c with current := s, points := p } where
  valid := h.work hup hpool rfl rfl
  emitted := ⟨instrs, hcode, by rwa [Assembles, FunctionScope.names, hup]⟩
  constants := hconstants
  prototypes := List.prefix_rfl
  paramCount := hparams
  upvalues := hup ▸ List.prefix_rfl
  enclosing := captures_refl _
  names := names_work hup rfl fun k name => by simp

/-- Work in the innermost function that emits no code. -/
theorem of_quiet (h : c.Valid) {s : FunctionScope} (hproto : s.proto = c.current.proto)
    (hup : s.upvalues = c.current.upvalues) : c.Grown [] ∅ { c with current := s } :=
  have hasm : Assembled c.prototypes s.proto.constants c.current.names [] [] := trivial
  of_work h (by rw [hproto, List.append_nil]) (hproto ▸ List.prefix_rfl) (hproto ▸ rfl)
    (hproto ▸ h.pool) hup hasm

/-- A jump is given its distance. -/
theorem patch {x : Asm} {kind : JumpKind} {front back : List Asm} {target : Nat}
    (h : c.Grown (front ++ x :: back) A c')
    (hx : x = .breakOut ∧ kind = .jmp ∨ ∃ distance, x = .jump kind distance)
    (hrun : (patchJumpTo (c.codeLen + front.length) target).run c' = (.ok (), c'')) :
    c.Grown (front ++ .jump kind ((target : Int) - (c.codeLen + front.length : Nat) - 1) :: back)
      A c'' ∧
      ∃ code, c'' = { c' with current := { c'.current with
        proto := { c'.current.proto with code } } } := by
  obtain ⟨instrs, hcode, hasm⟩ := h.emitted
  obtain ⟨iFront, iRest, rfl, hfront, hrest⟩ := assembled_append.mp hasm
  rcases iRest with - | ⟨instr, iBack⟩
  · exact hrest.elim
  obtain ⟨hinstr, hback⟩ := hrest
  have hlength : c.codeLen + front.length = c.current.proto.code.length + iFront.length := by
    rw [hfront.length_eq]
    rfl
  have hidx : c'.current.proto.code[c.codeLen + front.length]? = some instr := by
    rw [hcode, hlength, ← List.append_assoc, ← List.length_append,
      List.getElem?_append_right le_rfl, Nat.sub_self]
    rfl
  have hoffset (off : Int16) : instr.withOffset off = some (kind.instruction off) := by
    rcases hx with ⟨rfl, rfl⟩ | ⟨distance, rfl⟩
    · rw [show instr = .jmp 0 from hinstr]
      rfl
    · rw [show instr = kind.instruction (.ofInt distance) from hinstr]
      cases kind <;> rfl
  simp only [patchJumpTo, currentScope, setScope, Exec.run_bind, hidx, Option.bind_some, hoffset,
    orPanic, Exec.run_pure, Exec.run_modify, Prod.mk.injEq] at hrun
  obtain ⟨-, rfl⟩ := hrun
  refine ⟨⟨h.valid.work rfl h.valid.pool rfl rfl, ?_, h.constants, h.prototypes, h.paramCount, h.upvalues,
    h.enclosing, names_work (c := c') rfl rfl h.names⟩, _, rfl⟩
  refine ⟨iFront ++ kind.instruction (.ofInt _) :: iBack, ?_,
    assembled_append.mpr ⟨iFront, _, rfl, hfront, rfl, hback⟩⟩
  rw [hcode, hlength, ← List.append_assoc, ← List.append_assoc, ← List.length_append,
    List.set_append_right _ _ le_rfl, Nat.sub_self]
  rfl

/-- A name is resolved, which makes its variable an upvalue where it is one of a function
around. -/
theorem resolve (h : c.Valid) (name : Bytes) :
    c.Grown [] {p | ∃ x, c.env.resolve name = some x ∧ p ∈ (Asm.load x).captures}
      (c.resolve name).2 := by
  obtain ⟨hwired, hcaptures, -⟩ := resolve_source h.wired name
  have hupvalue (n : Nat) (v : LocalVar) (hv : visible name c.scopes = some (n + 1, v)) (k : Nat)
      (m : Bytes) : (∃ level, k < level ∧ (m, level) ∈
        {p | ∃ x, c.env.resolve name = some x ∧ p ∈ (Asm.load x).captures}) ↔
          m = name ∧ k < n + 1 := by
    rw [resolve_env, hv]
    constructor
    · rintro ⟨level, hk, x, hx, hmem⟩
      cases hx
      cases List.mem_singleton.mp hmem
      exact ⟨visible_name hv, hk⟩
    · rintro ⟨rfl, hk⟩
      exact ⟨n + 1, hk, _, rfl, List.mem_singleton.mpr (by rw [visible_name hv])⟩
  have hscopes := visible_scopes c name
  unfold Compiler.resolve at hwired hcaptures ⊢
  cases hfind : c.current.findLocal name with
  | some v =>
    rw [hfind] at hscopes
    refine { refl h with names := fun k m => (or_iff_left ?_).symm }
    rintro ⟨level, -, x, hx, hmem⟩
    rw [resolve_env, hscopes] at hx
    cases hx
    cases hmem
  | none =>
    rw [hfind] at hscopes hwired hcaptures
    dsimp only at hwired hcaptures ⊢
    cases hup : c.current.findUpvalue name with
    | some i =>
      obtain ⟨desc, hget⟩ := FunctionScope.findUpvalue_eq_some hup
      have hmem := List.mem_of_getElem? hget
      obtain ⟨⟨n, v⟩, hv⟩ := Option.isSome_iff_exists.mp (h.wired.1.visible (h.wired.2 _ hmem))
      rw [hv] at hscopes
      refine { refl h with names := fun k m => ?_ }
      rw [hupvalue n v hscopes]
      refine ⟨.inl, fun hm => hm.elim id ?_⟩
      rintro ⟨rfl, hk⟩
      cases k with
      | zero => exact List.mem_map.mpr ⟨_, hmem, rfl⟩
      | succ k => exact h.wired.1.registered (h.wired.2 _ hmem) hv (by omega)
    | none =>
      rw [hup] at hwired hcaptures
      dsimp only at hwired hcaptures ⊢
      have hfound := findUpvalueInEnclosing_source name h.wired.1
      cases hcase : findUpvalueInEnclosing name c.enclosing with
      | none =>
        rw [hcase] at hfound
        have hnone : visible name c.enclosing = none := hfound
        rw [hnone] at hscopes
        refine { refl h with names := fun k m => (or_iff_left ?_).symm }
        rintro ⟨level, -, x, hx, hmem⟩
        rw [resolve_env, hscopes] at hx
        cases hx
      | some found =>
        obtain ⟨desc, enclosing⟩ := found
        rw [hcase] at hfound hwired hcaptures
        dsimp only at hwired hcaptures ⊢
        obtain ⟨hwired', hcaptures', hsource⟩ := hfound
        obtain ⟨⟨n, v⟩, hv⟩ := Option.isSome_iff_exists.mp (hwired'.visible hsource)
        rw [visible_captures hcaptures'] at hv
        rw [hv] at hscopes
        have hnodup := nodup_findUpvalueInEnclosing
          (fun t ht => h.nodup t (List.mem_cons_of_mem _ ht)) hcase
        exact {
          valid := ⟨hwired, List.forall_mem_cons.mpr ⟨FunctionScope.nodup_names_concat
            (h.nodup _ List.mem_cons_self) hup desc, hnodup⟩, pools_captures hcaptures h.pools,
            h.chunk⟩
          emitted := ⟨[], by simp, trivial⟩
          constants := List.prefix_rfl
          prototypes := List.prefix_rfl
          paramCount := rfl
          upvalues := List.prefix_append ..
          enclosing := hcaptures'
          names := fun k m => by
            rw [hupvalue n v hscopes]
            cases k with
            | zero => simp [namesAt, scopes, FunctionScope.names, or_comm]
            | succ k =>
              rw [scopes, mem_namesAt_cons, scopes, mem_namesAt_cons,
                names_findUpvalueInEnclosing h.wired.1 hv hcase, Nat.add_lt_add_iff_right] }

end Grown

section Resolve

variable {c : Compiler} {name : Bytes}

theorem resolve_ref (h : c.Valid) {x : Var} (hx : c.env.resolve name = some x) :
    x.level = 0 ∧ (c.resolve name).1 = .local x.decl.slot ∨
      x.level ≠ 0 ∧ ∃ i, (c.resolve name).1 = .upvalue (.ofNat i) ∧
        (c.resolve name).2.current.names[i]? = some x.decl.name := by
  have hresolved := (resolve_source h.wired name).2.2
  rw [resolve_env] at hx
  obtain ⟨⟨n, v⟩, hv, rfl⟩ := Option.map_eq_some_iff.mp hx
  rw [hv] at hresolved
  cases n with
  | zero => exact .inl ⟨rfl, hresolved⟩
  | succ n =>
    obtain ⟨i, desc, href, hget⟩ := hresolved
    refine .inr ⟨nofun, i, href, ?_⟩
    rw [FunctionScope.names, List.getElem?_map, hget, visible_name hv]
    rfl

theorem resolve_global (h : c.Valid) (hx : c.env.resolve name = none) :
    (c.resolve name).1 = .global := by
  have hresolved := (resolve_source h.wired name).2.2
  rw [resolve_env, Option.map_eq_none_iff] at hx
  rw [hx] at hresolved
  exact hresolved

theorem env_captures {c c' : Compiler} (h : Forall₂ FunctionScope.Captures c.scopes c'.scopes) :
    c'.env = c.env := by
  have hlocals {ss ss' : List FunctionScope} (h : Forall₂ FunctionScope.Captures ss ss') :
      ss'.map (·.locals) = ss.map (·.locals) := by
    induction h with
    | nil => rfl
    | cons hs _ ih =>
      obtain ⟨more, rfl⟩ := hs
      rw [List.map_cons, List.map_cons, ih]
      rfl
  obtain ⟨hcurrent, henclosing⟩ := List.cons.inj (hlocals h)
  exact congrArg₂ Env.mk hcurrent henclosing

theorem breakPatches_captures {c c' : Compiler}
    (h : Forall₂ FunctionScope.Captures c.scopes c'.scopes) :
    c'.current.breakPatches = c.current.breakPatches := by
  cases h with
  | cons hs _ =>
    obtain ⟨more, hmore⟩ := hs
    rw [hmore]

end Resolve

/-- Where the jumps out of the innermost loop are in the code, which starts at the base. -/
def positions : Nat → List Asm → List Nat
  | _, [] => []
  | base, .breakOut :: rest => base :: positions (base + 1) rest
  | base, _ :: rest => positions (base + 1) rest

theorem positions_append (base : Nat) (code rest : List Asm) :
    positions base (code ++ rest) = positions base code ++ positions (base + code.length) rest := by
  induction code generalizing base with
  | nil => rfl
  | cons asm code ih =>
    have hbase : base + (code.length + 1) = base + 1 + code.length := by omega
    cases asm <;> simp only [List.cons_append, positions, ih, List.length_cons, hbase]

theorem positions_of_not_mem {code : List Asm} (h : .breakOut ∉ code) (base : Nat) :
    positions base code = [] := by
  induction code generalizing base with
  | nil => rfl
  | cons asm code ih =>
    rw [List.mem_cons, not_or] at h
    cases asm with
    | breakOut => exact absurd rfl h.1
    | _ => exact ih h.2 _

def addBreaks : List (Nat × List Nat) → List Nat → List (Nat × List Nat)
  | [], _ => []
  | (pops, patches) :: rest, more => (pops, patches ++ more) :: rest

theorem addBreaks_append (patches : List (Nat × List Nat)) (more more' : List Nat) :
    addBreaks (addBreaks patches more) more' = addBreaks patches (more ++ more') := by
  cases patches with
  | nil => rfl
  | cons loop rest => simp [addBreaks]

theorem addBreaks_nil (patches : List (Nat × List Nat)) : addBreaks patches [] = patches := by
  cases patches with
  | nil => rfl
  | cons loop rest => simp [addBreaks]

theorem addBreaks_eq_nil {patches : List (Nat × List Nat)} {more : List Nat} :
    addBreaks patches more = [] ↔ patches = [] := by
  cases patches <;> simp [addBreaks]

theorem map_addBreaks (patches : List (Nat × List Nat)) (more : List Nat) :
    (addBreaks patches more).map (·.1) = patches.map (·.1) := by
  cases patches <;> rfl

/-- Since a state the code has been emitted in the innermost loop, whose end the jumps out
of it wait for. -/
structure Emission (c : Compiler) (code : List Asm) (captured : Set (Bytes × Nat))
    (c' : Compiler) : Prop extends c.Grown code captured c' where
  breaks : c'.current.breakPatches =
    addBreaks c.current.breakPatches (positions c.codeLen code)
  inLoop : c.current.breakPatches = [] → .breakOut ∉ code

namespace Emission

variable {c c' c'' : Compiler} {code rest : List Asm} {A B : Set (Bytes × Nat)}

theorem trans (h : c.Emission code A c') (h' : c'.Emission rest B c'') :
    c.Emission (code ++ rest) (A ∪ B) c'' where
  toGrown := h.toGrown.trans h'.toGrown
  breaks := by
    rw [h'.breaks, h.breaks, addBreaks_append, positions_append, h.codeLen]
  inLoop := fun hnil => by
    have hnil' : c'.current.breakPatches = [] := by rw [h.breaks, addBreaks_eq_nil, hnil]
    exact List.mem_append.not.mpr (not_or.mpr ⟨h.inLoop hnil, h'.inLoop hnil'⟩)

theorem of_grown (h : c.Grown code A c') (hbreaks : c'.current.breakPatches = c.current.breakPatches)
    (hcode : .breakOut ∉ code) : c.Emission code A c' where
  toGrown := h
  breaks := by rw [positions_of_not_mem hcode, addBreaks_nil, hbreaks]
  inLoop := fun _ => hcode

theorem refl (h : c.Valid) : c.Emission [] ∅ c := of_grown (.refl h) rfl nofun

theorem resolve (h : c.Valid) (name : Bytes) :
    c.Emission [] {p | ∃ x, c.env.resolve name = some x ∧ p ∈ (Asm.load x).captures}
      (c.resolve name).2 :=
  of_grown (.resolve h name) (breakPatches_captures (resolve_source h.wired name).2.1) nofun

end Emission

end Compiler

end Proveno
