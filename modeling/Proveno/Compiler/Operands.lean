import Proveno.Compiler.Slots

/-! The code generator keeps the operands of what it has compiled in range, and the slots in
use apart, whichever of its primitives it runs. -/

namespace Proveno

open List (Forall₂)

namespace Compiler

variable {c c' c'' : Compiler} {n n' n'' : Nat} {pre : List Instruction} {line : UInt32}

def Allows (c : Compiler) (instr : Instruction) : Prop := c.current.Allows c.prototypes instr

/-- Of what is compiled and what is complete every operand is in range, and wherever an
instruction has been emitted the slots in use were different. -/
structure Sound (n : Nat) (c : Compiler) : Prop where
  valid : c.Valid
  current : c.current.Laid n c.prototypes
  enclosing : ∀ s ∈ c.enclosing, s.Laid 0 c.prototypes
  prototypes : ∀ proto ∈ c.prototypes, proto.Bounded c.prototypes
  points : ∀ p ∈ c.points, p.slots.Nodup

/-- Since a state there is room for more, and the functions around have only taken more
variables. -/
structure Widened (c c' : Compiler) : Prop where
  locals : c.current.maxLocals.toNat ≤ c'.current.maxLocals.toNat
  upvalues : c.current.upvalues.length ≤ c'.current.upvalues.length
  constants : c.current.proto.constants <+: c'.current.proto.constants
  prototypes : c.prototypes <+: c'.prototypes
  enclosing : Forall₂ FunctionScope.Captures c.enclosing c'.enclosing

theorem Widened.refl (c : Compiler) : c.Widened c :=
  ⟨le_rfl, le_rfl, List.prefix_rfl, List.prefix_rfl, captures_refl _⟩

theorem Widened.trans (h : c.Widened c') (h' : c'.Widened c'') : c.Widened c'' where
  locals := h.locals.trans h'.locals
  upvalues := h.upvalues.trans h'.upvalues
  constants := h.constants.trans h'.constants
  prototypes := h.prototypes.trans h'.prototypes
  enclosing := captures_trans h.enclosing h'.enclosing

theorem Widened.allows (h : c.Widened c') {instr : Instruction} (hallows : c.Allows instr) :
    c'.Allows instr :=
  Instruction.InRange.mono hallows h.locals h.upvalues h.constants (.of_grown h.prototypes)

/-- The computation keeps the operands in range, where there are so many temporaries and
these instructions are in range, and makes room for what it has as its value. -/
def Keeps {α : Type} (n : Nat) (pre : List Instruction) (m : Codegen α) (n' : Nat)
    (post : α → List Instruction) : Prop :=
  ∀ c c' a, c.Sound n → (∀ instr ∈ pre, c.Allows instr) → m.run c = (.ok a, c') →
    c'.Sound n' ∧ c.Widened c' ∧ ∀ instr ∈ post a, c'.Allows instr

/-- What is compiled keeps the operands in range. -/
abbrev KeepsRange (m : Codegen Unit) : Prop := Keeps 0 [] m 0 fun _ => []

namespace Keeps

variable {α β : Type} {m : Codegen α} {f : α → Codegen β} {post : α → List Instruction}
  {post' : β → List Instruction}

theorem bind (hm : Keeps n pre m n' post) (hf : ∀ a, Keeps n' (post a ++ pre) (f a) n'' post') :
    Keeps n pre (m >>= f) n'' post' := by
  intro c c' b hsound hpre hrun
  obtain ⟨a, mid, hrun₁, hrun₂⟩ := Exec.run_bind_eq_ok.mp hrun
  obtain ⟨hsound₁, hwidened₁, hpost⟩ := hm c mid a hsound hpre hrun₁
  have hpre' (instr : Instruction) (hmem : instr ∈ post a ++ pre) : mid.Allows instr :=
    (List.mem_append.mp hmem).elim (hpost instr) fun h => hwidened₁.allows (hpre instr h)
  obtain ⟨hsound₂, hwidened₂, hpost'⟩ := hf a mid c' b hsound₁ hpre' hrun₂
  exact ⟨hsound₂, hwidened₁.trans hwidened₂, hpost'⟩

theorem seq {k : Codegen β} {post : α → List Instruction} (hm : Keeps n pre m n' post)
    (hk : Keeps n' pre k n'' post') : Keeps n pre (m >>= fun _ => k) n'' post' :=
  hm.bind fun _ c c' b hsound hpre hrun =>
    hk c c' b hsound (fun instr hmem => hpre instr (List.mem_append_right _ hmem)) hrun

theorem mono {pre' : List Instruction} (hm : Keeps n pre m n' post) (hsub : pre ⊆ pre') :
    Keeps n pre' m n' post :=
  fun c c' a hsound hpre hrun => hm c c' a hsound (fun instr hmem => hpre instr (hsub hmem)) hrun

theorem pure (a : α) : Keeps n pre (Pure.pure a) n fun _ => [] := by
  intro c c' b hsound _ hrun
  cases hrun
  exact ⟨hsound, .refl c, List.forall_mem_nil _⟩

theorem fail (e : CompileError) : Keeps n pre (Compiler.fail e : Codegen α) n' post := by
  intro c c' b _ _ hrun
  cases hrun

theorem panic : Keeps n pre (Exec.throw .panicked : Codegen α) n' post := by
  intro c c' b _ _ hrun
  cases hrun

end Keeps

/-- What is compiled where more is known. -/
theorem Keeps.within {m : Codegen Unit} (hm : KeepsRange m) : Keeps 0 pre m 0 fun _ => [] :=
  hm.mono (List.nil_subset _)

section Work

/-- Work in the innermost function that leaves its upvalues as they are. -/
theorem Sound.work (h : c.Sound n) {s : FunctionScope} (hs : s.Laid n' c.prototypes)
    (hup : s.upvalues = c.current.upvalues)
    (hconstants : s.proto.constants = c.current.proto.constants) :
    Sound n' { c with current := s } where
  valid := h.valid.work hup (hconstants ▸ h.valid.pool) rfl rfl
  current := hs
  enclosing := h.enclosing
  prototypes := h.prototypes
  points := h.points

theorem Widened.work {s : FunctionScope} {p : List Point}
    (hlocals : c.current.maxLocals.toNat ≤ s.maxLocals.toNat)
    (hup : s.upvalues = c.current.upvalues)
    (hconstants : c.current.proto.constants <+: s.proto.constants) :
    c.Widened { c with current := s, points := p } :=
  ⟨hlocals, hup ▸ le_rfl, hconstants, List.prefix_rfl, captures_refl _⟩

theorem keeps_currentScope : Keeps n pre currentScope n fun _ => [] := by
  intro c c' s hsound _ hrun
  cases hrun
  exact ⟨hsound, .refl c, List.forall_mem_nil _⟩

theorem keeps_codeLength : Keeps n pre codeLength n fun _ => [] := by
  intro c c' s hsound _ hrun
  cases hrun
  exact ⟨hsound, .refl c, List.forall_mem_nil _⟩

theorem keeps_addU8 (a b : UInt8) : Keeps n pre (addU8 a b) n fun _ => [] := by
  intro c c' sum hsound _ hrun
  obtain ⟨rfl, rfl⟩ := run_addU8_eq_ok hrun
  exact ⟨hsound, .refl c', List.forall_mem_nil _⟩

theorem keeps_emit {instr : Instruction} (h : instr ∈ pre ∨ instr.Free) :
    Keeps n pre (emit instr line) n fun _ => [] := by
  intro c c' idx hsound hpre hrun
  cases hrun
  have hinstr : c.Allows instr := h.elim (hpre instr) fun hfree => hfree _ _ _ _
  have hlaid := hsound.current
  refine ⟨⟨hsound.valid.work rfl hsound.valid.pool rfl rfl, ⟨hlaid.temps, hlaid.slots, hlaid.few,
    hlaid.room, ?_⟩, hsound.enclosing, hsound.prototypes, ?_⟩, .work le_rfl rfl List.prefix_rfl,
    List.forall_mem_nil _⟩
  · intro i hi
    rcases List.mem_append.mp hi with hi | hi
    · exact hlaid.code i hi
    · rw [List.mem_singleton.mp hi]
      exact hinstr
  · intro p hp
    rcases List.mem_append.mp hp with hp | hp
    · exact hsound.points p hp
    · rw [List.mem_singleton.mp hp]
      exact hlaid.nodup

theorem keeps_emitAll {instrs : List Instruction}
    (h : ∀ instr ∈ instrs, instr ∈ pre ∨ instr.Free) :
    Keeps n pre (emitAll line instrs) n fun _ => [] := by
  induction instrs with
  | nil => exact .pure ()
  | cons instr rest ih =>
    rw [List.forall_mem_cons] at h
    exact (keeps_emit h.1).seq (ih h.2)

theorem withOffset_free {off : Int16} {instr instr' : Instruction}
    (h : instr.withOffset off = some instr') : instr'.Free := by
  cases instr <;> cases h <;> exact fun _ _ _ _ => trivial

theorem keeps_patchJumpTo (idx target : Nat) :
    Keeps n pre (patchJumpTo idx target) n fun _ => [] := by
  intro c c' _ hsound _ hrun
  rw [patchJumpTo, Exec.run_bind, currentScope] at hrun
  obtain ⟨instr, mid, hpatch, hset⟩ := Exec.run_bind_eq_ok.mp hrun
  cases hwith : c.current.proto.code[idx]?.bind
      (Instruction.withOffset (.ofInt ((target : Int) - idx - 1))) with
  | none =>
    rw [hwith] at hpatch
    cases hpatch
  | some jump =>
    rw [hwith] at hpatch
    cases hpatch
    cases hset
    obtain ⟨old, -, hold⟩ := Option.bind_eq_some_iff.mp hwith
    have hlaid := hsound.current
    refine ⟨hsound.work ⟨hlaid.temps, hlaid.slots, hlaid.few, hlaid.room, fun i hi => ?_⟩ rfl rfl,
      .work le_rfl rfl List.prefix_rfl, List.forall_mem_nil _⟩
    rcases List.mem_or_eq_of_mem_set hi with hi | rfl
    · exact hlaid.code i hi
    · exact withOffset_free hold _ _ _ _

theorem keeps_patchJump (idx : Nat) : Keeps n pre (patchJump idx) n fun _ => [] :=
  keeps_codeLength.bind fun target => keeps_patchJumpTo idx target

theorem keeps_patchJumps (idxs : List Nat) : Keeps n pre (patchJumps idxs) n fun _ => [] := by
  induction idxs with
  | nil => exact .pure ()
  | cons idx rest ih => exact (keeps_patchJump idx).seq ih

theorem keeps_patchJumpsTo (target : Nat) (idxs : List Nat) :
    Keeps n pre (patchJumpsTo target idxs) n fun _ => [] := by
  induction idxs with
  | nil => exact .pure ()
  | cons idx rest ih => exact (keeps_patchJumpTo idx target).seq ih

theorem keeps_emitBackJump (loopStart : Nat) :
    Keeps n pre (emitBackJump loopStart line) n fun _ => [] := by
  refine keeps_codeLength.bind fun stop => ?_
  have hfree : (Instruction.jmp (.ofInt ((loopStart : Int) - stop - 1))).Free :=
    fun _ _ _ _ => trivial
  exact (keeps_emit (.inr hfree)).seq (.pure ())

/-- Work that only changes what waits for the ends of the loops. -/
theorem Sound.breaks (h : c.Sound n) (breakPatches : List (Nat × List Nat)) :
    Sound n { c with current := { c.current with breakPatches } } := by
  have hlaid := h.current
  exact h.work ⟨hlaid.temps, hlaid.slots, hlaid.few, hlaid.room, hlaid.code⟩ rfl rfl

theorem keeps_pushBreakScope (extraPops : Nat) :
    Keeps n pre (pushBreakScope extraPops) n fun _ => [] := by
  intro c c' _ hsound _ hrun
  cases hrun
  exact ⟨hsound.breaks _, .work le_rfl rfl List.prefix_rfl, List.forall_mem_nil _⟩

theorem keeps_popBreakScope : Keeps n pre popBreakScope n fun _ => [] := by
  intro c c' patches hsound _ hrun
  rw [popBreakScope] at hrun
  dsimp only at hrun
  cases hbreaks : c.current.breakPatches with
  | nil =>
    rw [hbreaks] at hrun
    cases hrun
    exact ⟨hsound, .refl _, List.forall_mem_nil _⟩
  | cons loop rest =>
    rw [hbreaks] at hrun
    cases hrun
    exact ⟨hsound.breaks rest, .work le_rfl rfl List.prefix_rfl, List.forall_mem_nil _⟩

theorem keeps_constantAt (k : Constant) (c c' : Compiler) (idx : UInt16) (hsound : c.Sound n)
    (hrun : (addConstant k line).run c = (.ok idx, c')) :
    c'.Sound n ∧ c.Widened c' ∧ c'.current.proto.constants[idx.toNat]? = some k := by
  obtain ⟨hat, hemission, -⟩ := emission_addConstant hsound.valid hrun
  have hget : c'.current.proto.constants[idx.toNat]? = some k := by
    obtain ⟨i, hget, hlt, rfl⟩ := hat
    rw [UInt16.toNat_ofNat_of_lt' (hlt.trans (by decide)), hget]
  rw [addConstant, Exec.run_bind, currentScope] at hrun
  dsimp only at hrun
  cases hfind : c.current.proto.constants.findIdx? (· = k) with
  | some i =>
    rw [hfind] at hrun
    cases hrun
    exact ⟨hsound, .refl _, hget⟩
  | none =>
    rw [hfind] at hrun
    dsimp only at hrun
    split_ifs at hrun
    · cases hrun
    · cases hrun
      have hlaid := hsound.current
      refine ⟨⟨hemission.valid, ⟨hlaid.temps, hlaid.slots, hlaid.few, hlaid.room, fun i hi => ?_⟩,
        hsound.enclosing, hsound.prototypes, hsound.points⟩, .work le_rfl rfl hemission.constants,
        hget⟩
      exact (hlaid.code i hi).mono le_rfl le_rfl hemission.constants (.of_grown List.prefix_rfl)

theorem keeps_addConstant (k : Constant) :
    Keeps n pre (addConstant k line) n fun idx => [.pushK idx] := by
  intro c c' idx hsound _ hrun
  obtain ⟨hsound', hwidened, hget⟩ := keeps_constantAt k c c' idx hsound hrun
  refine ⟨hsound', hwidened, List.forall_mem_singleton.mpr ?_⟩
  exact (List.getElem?_eq_some_iff.mp hget).1

theorem keeps_addStringConstant (name : Bytes) : Keeps n pre (addStringConstant name line) n
    fun idx => [.pushK idx, .getField idx, .setField idx] := by
  intro c c' idx hsound _ hrun
  obtain ⟨hsound', hwidened, hget⟩ := keeps_constantAt _ c c' idx hsound hrun
  refine ⟨hsound', hwidened, ?_⟩
  simp only [List.forall_mem_cons]
  exact ⟨(List.getElem?_eq_some_iff.mp hget).1, ⟨name, hget⟩, ⟨name, hget⟩, nofun⟩

/-- The instructions that access a slot. -/
def slotAccesses (slot : UInt8) : List Instruction := [.loadLocal slot, .storeLocal slot]

def accesses : VarRef → List Instruction
  | .local slot => slotAccesses slot
  | .upvalue idx => [.loadUp idx, .storeUp idx]
  | .global => []

theorem allows_slot {slot : UInt8} (hslot : slot.toNat < c.current.maxLocals.toNat) :
    ∀ instr ∈ slotAccesses slot, c.Allows instr :=
  List.forall_mem_cons.mpr ⟨hslot, List.forall_mem_singleton.mpr hslot⟩

theorem allows_upvalue {i : Nat} (hi : i < c.current.upvalues.length) :
    ∀ instr ∈ accesses (.upvalue (.ofNat i)), c.Allows instr := by
  have hlt : (UInt8.ofNat i).toNat < c.current.upvalues.length := by
    rw [UInt8.toNat_ofNat']
    exact (Nat.mod_le _ _).trans_lt hi
  exact List.forall_mem_cons.mpr ⟨hlt, List.forall_mem_singleton.mpr hlt⟩

/-- What a name resolves to is there. -/
theorem resolve_accessed (h : c.Sound n) (name : Bytes) :
    ∀ instr ∈ accesses (c.resolve name).1, (c.resolve name).2.Allows instr := by
  unfold resolve
  cases hfind : c.current.findLocal name with
  | some v => exact allows_slot (h.current.lt_maxLocals (List.mem_of_find?_eq_some hfind))
  | none =>
    cases hup : c.current.findUpvalue name with
    | some i =>
      obtain ⟨desc, hget⟩ := FunctionScope.findUpvalue_eq_some hup
      exact allows_upvalue (List.getElem?_eq_some_iff.mp hget).1
    | none =>
      cases findUpvalueInEnclosing name c.enclosing with
      | some found => exact allows_upvalue (by simp)
      | none => exact List.forall_mem_nil _

/-- A name that is resolved makes no difference but to the upvalues. -/
theorem resolve_scopes (c : Compiler) (name : Bytes) :
    ∃ current enclosing, (c.resolve name).2 = { c with current, enclosing } := by
  unfold resolve
  cases c.current.findLocal name with
  | some v => exact ⟨_, _, rfl⟩
  | none =>
    cases c.current.findUpvalue name with
    | some i => exact ⟨_, _, rfl⟩
    | none =>
      cases findUpvalueInEnclosing name c.enclosing with
      | some found => exact ⟨_, _, rfl⟩
      | none => exact ⟨_, _, rfl⟩

theorem keeps_resolveVar (name : Bytes) : Keeps n pre (resolveVar name) n accesses := by
  intro c c' var hsound _ hrun
  cases hrun
  have href := resolve_accessed hsound name
  obtain ⟨-, hcaptures, -⟩ := resolve_source hsound.valid.wired name
  have hgrown := Grown.resolve hsound.valid name
  obtain ⟨current, enclosing, hresolve⟩ := resolve_scopes c name
  rw [hresolve] at hcaptures hgrown href ⊢
  obtain ⟨hcurrent, hrest⟩ := List.forall₂_cons.mp hcaptures
  have hlaid := hsound.current.captures hcurrent List.prefix_rfl
  obtain ⟨more, rfl⟩ := hcurrent
  exact ⟨⟨hgrown.valid, hlaid, .forall_captures hrest List.prefix_rfl hsound.enclosing,
    hsound.prototypes, hsound.points⟩, ⟨le_rfl, by simp, List.prefix_rfl, List.prefix_rfl, hrest⟩,
    href⟩

theorem keeps_enterBlock : Keeps n pre enterBlock n fun _ => [] := by
  intro c c' _ hsound _ hrun
  cases hrun
  have hlaid := hsound.current
  exact ⟨hsound.work ⟨hlaid.temps, hlaid.slots, hlaid.few, hlaid.room, hlaid.code⟩ rfl rfl,
    .work le_rfl rfl List.prefix_rfl, List.forall_mem_nil _⟩

theorem drop_reverse_range (k m : Nat) :
    (List.range m).reverse.drop k = (List.range (m - k)).reverse := by
  rw [List.drop_reverse, List.length_range, List.take_range, Nat.min_eq_left (Nat.sub_le _ _)]

theorem keeps_exitBlock : Keeps 0 pre exitBlock 0 fun _ => [] := by
  intro c c' _ hsound _ hrun
  cases hrun
  have hlaid := hsound.current
  cases hblocks : c.current.blocks with
  | nil =>
    have hpop : c.current.popBlock = c.current := by rw [FunctionScope.popBlock, hblocks]
    dsimp only
    rw [hpop]
    exact ⟨hsound, .refl _, List.forall_mem_nil _⟩
  | cons block rest =>
    have hlength := hlaid.nextSlot
    have hfew := hlaid.few
    have hslots := hlaid.slots
    have htemps := List.length_eq_zero_iff.mp hlaid.temps
    simp only [Point.slots, FunctionScope.point, htemps, hblocks, List.flatten_cons,
      List.length_append, List.map_append, List.nil_append] at hlength hfew hslots
    have hfreed : (UInt8.ofNat block.length).toNat = block.length :=
      UInt8.toNat_ofNat_of_lt' (show _ < 256 by omega)
    have hnext : (UInt8.ofNat (c.current.nextSlot.toNat - block.length)).toNat =
        c.current.nextSlot.toNat - block.length :=
      UInt8.toNat_ofNat_of_lt' (show _ < 256 by omega)
    have hpop : c.current.popBlock = { c.current with
        blocks := rest, nextSlot := .ofNat (c.current.nextSlot.toNat - block.length) } := by
      rw [FunctionScope.popBlock, hblocks]
      dsimp only
      rw [hfreed]
    dsimp only
    rw [hpop]
    refine ⟨hsound.work ⟨hlaid.temps, ?_, ?_, ?_, hlaid.code⟩ rfl rfl,
      .work le_rfl rfl List.prefix_rfl, List.forall_mem_nil _⟩
    · rw [hnext, ← drop_reverse_range, ← hslots, List.drop_left' (by simp)]
      simp [Point.slots, FunctionScope.point, htemps]
    · dsimp only
      omega
    · have hroom := hlaid.room
      rw [hnext]
      dsimp only
      omega

theorem keeps_declareLocal (name : Bytes) (hidden : Bool) :
    Keeps 0 pre (declareLocal name line hidden) 0 slotAccesses := by
  intro c c' slot hsound _ hrun
  rw [declareLocal, Exec.run_bind, currentScope] at hrun
  dsimp only at hrun
  by_cases hfull : c.current.nextSlot ≥ 200
  · rw [if_pos hfull] at hrun
    cases hrun
  · rw [if_neg hfull] at hrun
    obtain ⟨next, mid, hadd, hdeclare⟩ := Exec.run_bind_eq_ok.mp hrun
    obtain ⟨rfl, rfl⟩ := run_addU8_eq_ok hadd
    obtain ⟨s, mid', hpush, hset⟩ := Exec.run_bind_eq_ok.mp hdeclare
    unfold FunctionScope.pushLocal FunctionScope.reserve at hpush
    dsimp only at hpush
    cases hblocks : mid.current.blocks with
    | nil =>
      rw [hblocks] at hpush
      cases hpush
    | cons block rest =>
      rw [hblocks] at hpush
      cases hpush
      cases hset
      have hlaid := hsound.current
      have hlength := hlaid.nextSlot
      have htemps := List.length_eq_zero_iff.mp hlaid.temps
      have hlt : mid.current.nextSlot.toNat < 200 :=
        Nat.lt_of_not_le fun hle => hfull (UInt8.le_iff_toNat_le.mpr hle)
      rw [hblocks] at hlength
      have hreserved := hlaid.reserve (hlt.trans (by decide))
        ((⟨name, mid.current.nextSlot, hidden⟩ :: block) :: rest) mid.current.temps
        (by simp [Point.slots, FunctionScope.point, htemps, hblocks])
        (by simp at hlength ⊢; omega) hlaid.temps
      refine ⟨hsound.work hreserved rfl rfl,
        .work (toNat_le_max _ _).1 rfl List.prefix_rfl, allows_slot ?_⟩
      exact hreserved.lt_maxLocals (v := ⟨name, mid.current.nextSlot, hidden⟩) (by simp)

theorem keeps_allocTempSlot : Keeps 0 pre allocTempSlot 1 slotAccesses := by
  intro c c' slot hsound _ hrun
  rw [allocTempSlot, Exec.run_bind, currentScope] at hrun
  obtain ⟨next, mid, hadd, hrun⟩ := Exec.run_bind_eq_ok.mp hrun
  obtain ⟨rfl, rfl⟩ := run_addU8_eq_ok hadd
  cases hrun
  have hlaid := hsound.current
  have hlength := hlaid.nextSlot
  have hfew := hlaid.few
  have htemps := List.length_eq_zero_iff.mp hlaid.temps
  have hreserved := hlaid.reserve (show mid.current.nextSlot.toNat < 255 by omega)
    mid.current.blocks (mid.current.nextSlot :: mid.current.temps) rfl hfew
    (show _ = 1 by rw [List.length_cons, hlaid.temps])
  refine ⟨hsound.work hreserved rfl rfl, .work (toNat_le_max _ _).1 rfl List.prefix_rfl,
    allows_slot ?_⟩
  have hroom := hreserved.room
  have hnext := hreserved.nextSlot
  dsimp only [FunctionScope.reserve] at hroom hnext ⊢
  omega

theorem keeps_freeTempSlot : Keeps 1 pre freeTempSlot 0 fun _ => [] := by
  intro c c' _ hsound _ hrun
  cases hrun
  have hlaid := hsound.current
  obtain ⟨slot, htemps⟩ := List.length_eq_one_iff.mp hlaid.temps
  have hlt := c.current.nextSlot.toNat_lt
  have hnext : (UInt8.ofNat (c.current.nextSlot.toNat - 1)).toNat = c.current.nextSlot.toNat - 1 :=
    UInt8.toNat_ofNat_of_lt' (show _ < 256 by omega)
  refine ⟨hsound.work ⟨?_, ?_, hlaid.few, ?_, hlaid.code⟩ rfl rfl,
    .work le_rfl rfl List.prefix_rfl, List.forall_mem_nil _⟩
  · rw [htemps]
    rfl
  · rw [hnext, ← drop_reverse_range, ← hlaid.slots]
    simp [Point.slots, FunctionScope.point, htemps]
  · have hroom := hlaid.room
    rw [hnext]
    dsimp only
    omega

end Work

end Compiler

end Proveno
