import Mathlib.Logic.Relation
import Proveno.Compiler.Scope

/-! Names resolve by lexical scoping: a descriptor of an upvalue leads, through the functions
around, to the declaration that the name denotes. -/

namespace Proveno

open List (Forall₂)

/-- The function has taken more variables of the functions around it. -/
def FunctionScope.Captures (s s' : FunctionScope) : Prop :=
  ∃ more, s' = { s with upvalues := s.upvalues ++ more }

namespace FunctionScope.Captures

variable {s s' s'' : FunctionScope}

theorem refl (s : FunctionScope) : s.Captures s := ⟨[], by simp⟩

theorem trans (h : s.Captures s') (h' : s'.Captures s'') : s.Captures s'' := by
  obtain ⟨more, rfl⟩ := h
  obtain ⟨more', rfl⟩ := h'
  exact ⟨more ++ more', by simp⟩

theorem findLocal (h : s.Captures s') (name : Bytes) : s'.findLocal name = s.findLocal name := by
  obtain ⟨more, rfl⟩ := h
  rfl

theorem getElem?_upvalues (h : s.Captures s') {i : Nat} {u : Bytes × UpvalueDesc}
    (hget : s.upvalues[i]? = some u) : s'.upvalues[i]? = some u := by
  obtain ⟨more, rfl⟩ := h
  exact (List.getElem?_append_left (List.getElem?_eq_some_iff.mp hget).1).trans hget

end FunctionScope.Captures

namespace FunctionScope

variable {s : FunctionScope} {name : Bytes}

theorem findUpvalue_eq_some {i : Nat} (h : s.findUpvalue name = some i) :
    ∃ desc, s.upvalues[i]? = some (name, desc) := by
  obtain ⟨hlt, hname, -⟩ := List.findIdx?_eq_some_iff_getElem.mp h
  refine ⟨s.upvalues[i].2, ?_⟩
  rw [List.getElem?_eq_getElem hlt, ← of_decide_eq_true hname]

theorem findUpvalue_eq_none (h : s.findUpvalue name = none) (desc : UpvalueDesc) :
    (name, desc) ∉ s.upvalues := by
  intro hmem
  simpa using List.findIdx?_eq_none_iff.mp h _ hmem

end FunctionScope

namespace Compiler

/-- The functions that are being compiled, innermost first. -/
def scopes (c : Compiler) : List FunctionScope := c.current :: c.enclosing

/-- The declaration that a name denotes, and how many functions out it is. -/
def visible (name : Bytes) : List FunctionScope → Option (Nat × LocalVar)
  | [] => none
  | s :: rest =>
    match s.findLocal name with
    | some v => some (0, v)
    | none => (visible name rest).map fun (n, v) => (n + 1, v)

/-- The slot that a descriptor leads to, and how many functions out it is. -/
def leadsTo : List FunctionScope → UpvalueDesc → Option (Nat × UInt8)
  | [], _ => none
  | _ :: _, .local slot => some (0, slot)
  | s :: rest, .upvalue i =>
    (s.upvalues[i.toNat]?).bind fun u => (leadsTo rest u.2).map fun (n, slot) => (n + 1, slot)

/-- The function around has the variable that is taken from it, in a slot of its own or
among its upvalues. -/
def Source : List FunctionScope → Bytes × UpvalueDesc → Prop
  | [], _ => False
  | s :: _, (name, desc) =>
    match s.findLocal name with
    | some v => desc = .local v.slot
    | none => ∃ i desc', s.upvalues[i]? = some (name, desc') ∧ desc = .upvalue (.ofNat i)

/-- Every upvalue is taken from where the function around has it. -/
def Wired : List FunctionScope → Prop
  | [] => True
  | s :: rest => Wired rest ∧ ∀ u ∈ s.upvalues, Source rest u

variable {ss ss' : List FunctionScope} {name : Bytes} {desc : UpvalueDesc}

theorem visible_captures (h : Forall₂ FunctionScope.Captures ss ss') (name : Bytes) :
    visible name ss' = visible name ss := by
  induction h with
  | nil => rfl
  | cons hs _ ih => rw [visible, visible, hs.findLocal, ih]

theorem Source.captures (h : Forall₂ FunctionScope.Captures ss ss') {u : Bytes × UpvalueDesc}
    (hsource : Source ss u) : Source ss' u := by
  cases h with
  | nil => exact hsource
  | @cons s s' rest rest' hs hrest =>
    rw [Source] at hsource ⊢
    rw [hs.findLocal]
    cases hfind : s.findLocal u.1 with
    | some v =>
      rw [hfind] at hsource
      exact hsource
    | none =>
      rw [hfind] at hsource
      obtain ⟨i, desc', hget, hdesc⟩ := hsource
      exact ⟨i, desc', hs.getElem?_upvalues hget, hdesc⟩

theorem captures_refl (ss : List FunctionScope) : Forall₂ FunctionScope.Captures ss ss :=
  List.forall₂_same.mpr fun s _ => .refl s

theorem Wired.visible (h : Wired ss) (hsource : Source ss (name, desc)) :
    (visible name ss).isSome := by
  induction ss generalizing desc with
  | nil => exact hsource.elim
  | cons s rest ih =>
    rw [Compiler.visible]
    rw [Source] at hsource
    cases hfind : s.findLocal name with
    | some v => rfl
    | none =>
      rw [hfind] at hsource
      obtain ⟨i, desc', hget, -⟩ := hsource
      have hrest := ih h.1 (h.2 _ (List.mem_of_getElem? hget))
      simpa using hrest

/-- Where no function has more upvalues than an index can tell, a descriptor leads to the
declaration that its name denotes. -/
theorem Wired.leadsTo (h : Wired ss) (hsmall : ∀ s ∈ ss, s.upvalues.length < 256)
    (hsource : Source ss (name, desc)) :
    leadsTo ss desc = (Compiler.visible name ss).map fun (n, v) => (n, v.slot) := by
  induction ss generalizing desc with
  | nil => exact hsource.elim
  | cons s rest ih =>
    rw [Compiler.visible]
    rw [Source] at hsource
    cases hfind : s.findLocal name with
    | some v =>
      rw [hfind] at hsource
      rw [hsource, Compiler.leadsTo]
      rfl
    | none =>
      rw [hfind] at hsource
      obtain ⟨i, desc', hget, rfl⟩ := hsource
      have hlt : i < 256 :=
        (List.getElem?_eq_some_iff.mp hget).1.trans (hsmall s List.mem_cons_self)
      have hi : (UInt8.ofNat i).toNat = i := by
        rw [UInt8.toNat_ofNat', Nat.mod_eq_of_lt hlt]
      rw [Compiler.leadsTo, hi, hget, Option.bind_some,
        ih h.1 (fun t ht => hsmall t (List.mem_cons_of_mem _ ht)) (h.2 _ (List.mem_of_getElem? hget))]
      simp [Option.map_map, Function.comp_def]

variable (name) in
/-- What the search of the functions around finds, and what it leaves there. -/
theorem findUpvalueInEnclosing_source (h : Wired ss) :
    match findUpvalueInEnclosing name ss with
    | none => visible name ss = none
    | some (desc, ss') => Wired ss' ∧ Forall₂ FunctionScope.Captures ss ss' ∧
        Source ss' (name, desc) := by
  induction ss with
  | nil => rfl
  | cons s rest ih =>
    rw [findUpvalueInEnclosing]
    cases hfind : s.findLocal name with
    | some v =>
      refine ⟨h, captures_refl _, ?_⟩
      rw [Source, hfind]
    | none =>
      cases hup : s.findUpvalue name with
      | some i =>
        refine ⟨h, captures_refl _, ?_⟩
        rw [Source, hfind]
        obtain ⟨desc', hget⟩ := FunctionScope.findUpvalue_eq_some hup
        exact ⟨i, desc', hget, rfl⟩
      | none =>
        have hrest := ih h.1
        cases hfound : findUpvalueInEnclosing name rest with
        | none =>
          rw [hfound] at hrest
          have hnone : visible name rest = none := hrest
          simp [visible, hfind, hnone]
        | some found =>
          obtain ⟨desc, rest'⟩ := found
          rw [hfound] at hrest
          obtain ⟨hwired, hcaptures, hsource⟩ := hrest
          have hs : s.Captures { s with upvalues := s.upvalues ++ [(name, desc)] } := ⟨_, rfl⟩
          refine ⟨⟨hwired, fun u hu => ?_⟩, .cons hs hcaptures, ?_⟩
          · rcases List.mem_append.mp hu with hu | hu
            · exact (h.2 u hu).captures hcaptures
            · rwa [List.mem_singleton.mp hu]
          · rw [Source, hs.findLocal, hfind]
            exact ⟨s.upvalues.length, desc, List.getElem?_concat_length .., rfl⟩

/-- A resolved name is a slot of the function, one of its upvalues or not declared at all,
as lexical scoping has it. -/
theorem resolve_source {c : Compiler} (h : Wired c.scopes) (name : Bytes) :
    Wired (c.resolve name).2.scopes ∧
      Forall₂ FunctionScope.Captures c.scopes (c.resolve name).2.scopes ∧
      match visible name c.scopes with
      | none => (c.resolve name).1 = .global
      | some (0, v) => (c.resolve name).1 = .local v.slot
      | some (_ + 1, _) => ∃ i desc, (c.resolve name).1 = .upvalue (.ofNat i) ∧
          (c.resolve name).2.current.upvalues[i]? = some (name, desc) := by
  simp only [scopes, visible, resolve]
  cases hfind : c.current.findLocal name with
  | some v => exact ⟨h, captures_refl _, rfl⟩
  | none =>
    dsimp only
    cases hup : c.current.findUpvalue name with
    | some i =>
      obtain ⟨desc, hget⟩ := FunctionScope.findUpvalue_eq_some hup
      obtain ⟨⟨n, v⟩, hv⟩ :=
        Option.isSome_iff_exists.mp (h.1.visible (h.2 _ (List.mem_of_getElem? hget)))
      rw [hv]
      exact ⟨h, captures_refl _, i, desc, rfl, hget⟩
    | none =>
      have hfound := findUpvalueInEnclosing_source name h.1
      cases hcase : findUpvalueInEnclosing name c.enclosing with
      | none =>
        rw [hcase] at hfound
        rw [show visible name c.enclosing = none from hfound]
        exact ⟨h, captures_refl _, rfl⟩
      | some found =>
        obtain ⟨desc, enclosing⟩ := found
        rw [hcase] at hfound
        obtain ⟨hwired, hcaptures, hsource⟩ := hfound
        obtain ⟨⟨n, v⟩, hv⟩ := Option.isSome_iff_exists.mp (hwired.visible hsource)
        rw [← visible_captures hcaptures, hv]
        refine ⟨⟨hwired, fun u hu => ?_⟩, .cons ⟨_, rfl⟩ hcaptures, _, desc, rfl,
          List.getElem?_concat_length ..⟩
        rcases List.mem_append.mp hu with hu | hu
        · exact (h.2 u hu).captures hcaptures
        · rwa [List.mem_singleton.mp hu]

/-- What the code generator does to the scopes: it works in the innermost function, whose
upvalues only a name that is resolved adds to. -/
inductive Step : Compiler → Compiler → Prop
  | work {c : Compiler} (s : FunctionScope) (prototypes : List FunctionProto)
      (points : List Point) (h : s.upvalues = c.current.upvalues) :
      Step c { c with current := s, prototypes, points }
  | enterFunction {c : Compiler} (s : FunctionScope) (h : s.upvalues = []) :
      Step c { c with current := s, enclosing := c.current :: c.enclosing }
  | exitFunction {c : Compiler} {s : FunctionScope} {rest : List FunctionScope}
      (h : c.enclosing = s :: rest) : Step c { c with current := s, enclosing := rest }
  | resolve {c : Compiler} (name : Bytes) : Step c (c.resolve name).2

/-- A nest of functions and blocks, after any names have been declared and resolved in it. -/
def Nest (c : Compiler) : Prop :=
  ∃ c₀ : Compiler, c₀.current.upvalues = [] ∧ c₀.enclosing = [] ∧ Relation.ReflTransGen Step c₀ c

theorem Wired.step {c c' : Compiler} (h : Wired c.scopes) (hstep : Step c c') :
    Wired c'.scopes := by
  cases hstep with
  | work s prototypes points hs => exact ⟨h.1, fun u hu => h.2 u (hs ▸ hu)⟩
  | enterFunction s hs => exact ⟨h, fun u hu => by simp [hs] at hu⟩
  | exitFunction henclosing =>
    have hrest := h.1
    rw [henclosing] at hrest
    exact hrest
  | resolve name => exact (resolve_source h name).1

theorem Wired.steps {c c' : Compiler} (h : Wired c.scopes)
    (hsteps : Relation.ReflTransGen Step c c') : Wired c'.scopes := by
  induction hsteps with
  | refl => exact h
  | tail _ hstep ih => exact ih.step hstep

theorem Nest.wired {c : Compiler} (h : Nest c) : Wired c.scopes := by
  obtain ⟨c₀, hup, henclosing, hsteps⟩ := h
  refine Wired.steps ?_ hsteps
  rw [scopes, henclosing]
  exact ⟨trivial, fun u hu => by simp [hup] at hu⟩

/-- The functions down to the one that is this many from the outside. -/
def bottom (depth : Nat) (c : Compiler) : List FunctionScope :=
  c.scopes.drop (c.scopes.length - depth)

/-- The functions have taken more variables, and those around the first of them are the
same otherwise. -/
structure Kept (ss ss' : List FunctionScope) : Prop where
  upvalues : Forall₂ (fun s s' => s.upvalues <+: s'.upvalues) ss ss'
  around : Forall₂ FunctionScope.Captures ss.tail ss'.tail

theorem captures_trans {ss'' : List FunctionScope} (h : Forall₂ FunctionScope.Captures ss ss')
    (h' : Forall₂ FunctionScope.Captures ss' ss'') : Forall₂ FunctionScope.Captures ss ss'' := by
  induction h generalizing ss'' with
  | nil => exact h'
  | cons hs _ ih =>
    cases h' with
    | cons hs' hrest' => exact .cons (hs.trans hs') (ih hrest')

namespace Kept

theorem refl (ss : List FunctionScope) : Kept ss ss :=
  ⟨List.forall₂_same.mpr fun _ _ => List.prefix_rfl, captures_refl _⟩

theorem of_captures (h : Forall₂ FunctionScope.Captures ss ss') : Kept ss ss' := by
  refine ⟨h.imp fun s s' hs => ?_, ?_⟩
  · obtain ⟨more, rfl⟩ := hs
    exact List.prefix_append ..
  · cases h with
    | nil => exact .nil
    | cons _ hrest => exact hrest

theorem trans {ss'' : List FunctionScope} (h : Kept ss ss') (h' : Kept ss' ss'') :
    Kept ss ss'' := by
  refine ⟨?_, captures_trans h.around h'.around⟩
  have hup := h.upvalues
  have hup' := h'.upvalues
  clear h h'
  induction hup generalizing ss'' with
  | nil => exact hup'
  | cons hs _ ih =>
    cases hup' with
    | cons hs' hrest' => exact .cons (hs.trans hs') (ih hrest')

/-- What a descriptor leads to stays the same. -/
theorem leadsTo (h : Forall₂ (fun s s' => s.upvalues <+: s'.upvalues) ss ss')
    {d : Nat × UInt8} (hleads : leadsTo ss desc = some d) : Compiler.leadsTo ss' desc = some d := by
  induction h generalizing desc d with
  | nil => exact hleads
  | @cons s s' rest rest' hs _ ih =>
    cases desc with
    | «local» slot => exact hleads
    | upvalue i =>
      rw [Compiler.leadsTo] at hleads ⊢
      obtain ⟨u, hget, hu⟩ := Option.bind_eq_some_iff.mp hleads
      obtain ⟨d', hd', rfl⟩ := Option.map_eq_some_iff.mp hu
      obtain ⟨more, hmore⟩ := hs
      rw [← hmore, List.getElem?_append_left (List.getElem?_eq_some_iff.mp hget).1, hget,
        Option.bind_some, ih hd']
      rfl

end Kept

/-- A step that does not leave the function which is so many from the outside. -/
def StepWithin (depth : Nat) (c c' : Compiler) : Prop := Step c c' ∧ depth ≤ c'.scopes.length

theorem bottom_cons {s : FunctionScope} {depth : Nat} {c c' : Compiler}
    (hscopes : c'.scopes = s :: c.scopes) (h : depth ≤ c.scopes.length) :
    bottom depth c' = bottom depth c := by
  rw [bottom, bottom, hscopes, List.length_cons, Nat.succ_sub h, List.drop_succ_cons]

theorem Kept.drop (h : Forall₂ FunctionScope.Captures ss ss') (n : Nat) :
    Kept (ss.drop n) (ss'.drop n) :=
  .of_captures (List.forall₂_drop n h)

theorem StepWithin.kept {depth : Nat} {c c' : Compiler} (hwired : Wired c.scopes)
    (hdepth : depth ≤ c.scopes.length) (h : StepWithin depth c c') :
    Kept (bottom depth c) (bottom depth c') := by
  obtain ⟨hstep, hdepth'⟩ := h
  cases hstep with
  | work s prototypes points hs =>
    rw [bottom, bottom, scopes, scopes, List.length_cons, List.length_cons]
    cases c.enclosing.length + 1 - depth with
    | zero =>
      exact ⟨.cons (hs ▸ List.prefix_rfl) (Kept.refl _).upvalues, captures_refl _⟩
    | succ n => exact .refl _
  | enterFunction s hs =>
    have hbottom : bottom depth { c with current := s, enclosing := c.current :: c.enclosing } =
        bottom depth c := bottom_cons rfl hdepth
    exact hbottom ▸ .refl _
  | @exitFunction s rest henclosing =>
    have hbottom : bottom depth c = bottom depth { c with current := s, enclosing := rest } :=
      bottom_cons (by rw [scopes, henclosing]; rfl) hdepth'
    exact hbottom ▸ .refl _
  | resolve name =>
    have hcaptures := (resolve_source hwired name).2.1
    rw [bottom, bottom, ← hcaptures.length_eq]
    exact .drop hcaptures _

theorem kept_of_steps {depth : Nat} {c c' : Compiler} (hwired : Wired c.scopes)
    (hdepth : depth ≤ c.scopes.length) (h : Relation.ReflTransGen (StepWithin depth) c c') :
    Wired c'.scopes ∧ depth ≤ c'.scopes.length ∧ Kept (bottom depth c) (bottom depth c') := by
  induction h with
  | refl => exact ⟨hwired, hdepth, .refl _⟩
  | tail _ hstep ih =>
    obtain ⟨hwired', hdepth', hkept⟩ := ih
    exact ⟨hwired'.step hstep.1, hstep.2, hkept.trans (hstep.kept hwired' hdepth')⟩

/-- What an upvalue of a function denotes, and what its name does in the functions around. -/
def Denotes (name : Bytes) (idx : UInt8) (n : Nat) (v : LocalVar) (ss : List FunctionScope) :
    Prop :=
  leadsTo ss (.upvalue idx) = some (n + 1, v.slot) ∧ visible name ss.tail = some (n, v)

/-- In every nest a name resolves to the slot of the innermost declaration that is visible,
to an upvalue that leads to the slot of this declaration in a function around, and keeps
leading there for as long as the function is open, or to no variable where none is visible. -/
theorem resolve_lexical (c : Compiler) (hnest : Nest c) (name : Bytes)
    (hsmall : ∀ s ∈ (c.resolve name).2.scopes, s.upvalues.length < 256) :
    match visible name c.scopes with
    | none => (c.resolve name).1 = .global
    | some (0, v) => (c.resolve name).1 = .local v.slot
    | some (n + 1, v) => ∃ idx, (c.resolve name).1 = .upvalue idx ∧
        ∀ c', Relation.ReflTransGen (StepWithin c.scopes.length) (c.resolve name).2 c' →
          Denotes name idx n v (bottom c.scopes.length c') := by
  obtain ⟨hwired, hcaptures, hresolved⟩ := resolve_source hnest.wired name
  have hscopes : visible name c.scopes =
      match c.current.findLocal name with
      | some v => some (0, v)
      | none => (visible name c.enclosing).map fun (n, v) => (n + 1, v) := rfl
  rw [hscopes] at hresolved ⊢
  cases hfind : c.current.findLocal name with
  | some v =>
    rw [hfind] at hresolved
    exact hresolved
  | none =>
    rw [hfind] at hresolved
    cases hv : visible name c.enclosing with
    | none =>
      rw [hv] at hresolved
      exact hresolved
    | some out =>
      obtain ⟨n, v⟩ := out
      rw [hv] at hresolved
      obtain ⟨i, desc, href, hget⟩ := hresolved
      refine ⟨_, href, fun c' hsteps => ?_⟩
      have hlength := hcaptures.length_eq
      obtain ⟨-, -, hkept⟩ := kept_of_steps hwired hlength.le hsteps
      have hbottom : bottom c.scopes.length (c.resolve name).2 = (c.resolve name).2.scopes := by
        rw [bottom, ← hlength, Nat.sub_self, List.drop_zero]
      rw [hbottom] at hkept
      have hvisible : visible name (c.resolve name).2.enclosing = some (n, v) := by
        cases hcaptures with
        | cons _ hrest => rw [visible_captures hrest, hv]
      refine ⟨Kept.leadsTo hkept.upvalues ?_, ?_⟩
      · have hi : i < 256 := (List.getElem?_eq_some_iff.mp hget).1.trans
          (hsmall _ List.mem_cons_self)
        have hsource : Source (c.resolve name).2.enclosing (name, desc) :=
          hwired.2 _ (List.mem_of_getElem? hget)
        have hleads := hwired.1.leadsTo (fun s hs => hsmall s (List.mem_cons_of_mem _ hs)) hsource
        rw [hvisible] at hleads
        rw [scopes, leadsTo, UInt8.toNat_ofNat', Nat.mod_eq_of_lt hi, hget, Option.bind_some, hleads]
        rfl
      · rw [visible_captures hkept.around]
        exact hvisible

/-- A function in one that has declared a variable. -/
def nestOfTwo : Compiler where
  current := { FunctionScope.new 0 with blocks := [[]] }
  enclosing := [{ FunctionScope.new 0 with blocks := [[⟨ascii "x", 0, false⟩]] }]
  prototypes := []
  overflowChecks := true

theorem resolve_lexical_outer :
    ∃ idx, (nestOfTwo.resolve (ascii "x")).1 = .upvalue idx ∧
      ∀ c', Relation.ReflTransGen (StepWithin 2) (nestOfTwo.resolve (ascii "x")).2 c' →
        Denotes (ascii "x") idx 0 ⟨ascii "x", 0, false⟩ (bottom 2 c') :=
  resolve_lexical nestOfTwo
    ⟨{ nestOfTwo with current := FunctionScope.new 0, enclosing := [] }, rfl, rfl,
      .tail (.tail .refl (.work { FunctionScope.new 0 with blocks := [[⟨ascii "x", 0, false⟩]] }
        [] [] rfl)) (.enterFunction nestOfTwo.current rfl)⟩
    (ascii "x") (by decide)

end Compiler

end Proveno
