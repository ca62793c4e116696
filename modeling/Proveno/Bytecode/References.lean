import Proveno.Bytecode.Totality

/-! The references between prototypes, and the cycles of them that the verifier rejects.
A `Closure` instruction is a reference that its search does not follow. -/

namespace Proveno.Verifier

open Relation (TransGen ReflTransGen)

section

variable (program : CompiledProgram)

def ClosureRef (i j : Nat) : Prop :=
  ∃ proto idx, program.prototypes[i]? = some proto ∧ .closure idx ∈ proto.code ∧ idx.toNat = j

def ConstantRef (i j : Nat) : Prop :=
  ∃ proto idx, program.prototypes[i]? = some proto ∧ .proto idx ∈ proto.constants ∧ idx.toNat = j

/-- Prototype `i` refers to prototype `j`, by an instruction or by a constant. -/
def RefersTo (i j : Nat) : Prop := ClosureRef program i j ∨ ConstantRef program i j

def ReferenceCycle : Prop := ∃ i, TransGen (RefersTo program) i i

/-- A closure instruction of a prototype that its target refers back to. -/
def ClosureOnCycle : Prop :=
  ∃ i j, ClosureRef program i j ∧ ReflTransGen (RefersTo program) j i

/-- Accepted programs have no reference cycle, and only a cycle is reported as one. -/
structure RejectsCycles : Prop where
  accepted : verify program = .ok () → ¬ReferenceCycle program
  reported : ∀ child, verify program = reject (.prototypeCycle child) → ReferenceCycle program

end

section Graph

variable {program : CompiledProgram} {i j : Nat}

theorem RefersTo.lt (h : RefersTo program i j) : i < program.prototypes.length := by
  rcases h with ⟨proto, idx, hproto, -⟩ | ⟨proto, idx, hproto, -⟩
  · exact (List.getElem?_eq_some_iff.mp hproto).1
  · exact (List.getElem?_eq_some_iff.mp hproto).1

theorem mem_protoRefs {proto : FunctionProto} :
    j ∈ protoRefs proto ↔ ∃ idx, .proto idx ∈ proto.constants ∧ idx.toNat = j := by
  unfold protoRefs
  rw [List.mem_filterMap]
  constructor
  · rintro ⟨constant, hmem, hconstant⟩
    cases constant with
    | proto idx => exact ⟨idx, hmem, Option.some.inj hconstant⟩
    | _ => cases hconstant
  · rintro ⟨idx, hmem, rfl⟩
    exact ⟨.proto idx, hmem, rfl⟩

/-- The search follows the constants that refer to a prototype of the program. -/
theorem edge_iff : DepthFirst.Edge (program.prototypes.map protoRefs) i j ↔
    ConstantRef program i j ∧ j < program.prototypes.length := by
  unfold DepthFirst.Edge ConstantRef
  simp only [List.getElem?_map, List.length_map]
  constructor
  · rintro ⟨children, hchildren, hmem, hlt⟩
    obtain ⟨proto, hproto, rfl⟩ := Option.map_eq_some_iff.mp hchildren
    obtain ⟨idx, hidx, hj⟩ := mem_protoRefs.mp hmem
    exact ⟨⟨proto, idx, hproto, hidx, hj⟩, hlt⟩
  · rintro ⟨⟨proto, idx, hproto, hidx, hj⟩, hlt⟩
    exact ⟨protoRefs proto, by rw [hproto]; rfl, mem_protoRefs.mpr ⟨idx, hidx, hj⟩, hlt⟩

theorem referenceCycle_of_not_acyclic (h : ¬Acyclic program) : ReferenceCycle program := by
  obtain ⟨i, hi⟩ := not_forall.mp h
  have hle : DepthFirst.Edge (program.prototypes.map protoRefs) ≤ RefersTo program :=
    fun _ _ hedge => .inr (edge_iff.mp hedge).1
  exact ⟨i, TransGen.mono hle _ _ (not_not.mp hi)⟩

/-- A way through the references follows constants only, or passes a closure. -/
theorem constants_or_closure (hj : j < program.prototypes.length)
    (h : TransGen (RefersTo program) i j) :
    TransGen (DepthFirst.Edge (program.prototypes.map protoRefs)) i j ∨
      ∃ a b, ReflTransGen (RefersTo program) i a ∧ ClosureRef program a b ∧
        ReflTransGen (RefersTo program) b j := by
  induction h using TransGen.head_induction_on with
  | @single i hstep =>
    rcases hstep with hclosure | hconstant
    · exact .inr ⟨i, j, .refl, hclosure, .refl⟩
    · exact .inl (.single (edge_iff.mpr ⟨hconstant, hj⟩))
  | @head i k hstep hrest ih =>
    rcases hstep with hclosure | hconstant
    · exact .inr ⟨i, k, .refl, hclosure, hrest.to_reflTransGen⟩
    · obtain ⟨next, hnext, -⟩ := TransGen.head'_iff.mp hrest
      rcases ih with hconstants | ⟨a, b, hka, hab, hbj⟩
      · exact .inl (.head (edge_iff.mpr ⟨hconstant, hnext.lt⟩) hconstants)
      · exact .inr ⟨a, b, .head (.inr hconstant) hka, hab, hbj⟩

theorem ClosureOnCycle.referenceCycle (h : ClosureOnCycle program) : ReferenceCycle program := by
  obtain ⟨i, j, hij, hback⟩ := h
  exact ⟨i, .head' (.inl hij) hback⟩

/-- Any cycle is one of constants, or has a closure on it. -/
theorem referenceCycle_iff :
    ReferenceCycle program ↔ ClosureOnCycle program ∨ ¬Acyclic program := by
  constructor
  · rintro ⟨i, hi⟩
    obtain ⟨next, hnext, -⟩ := TransGen.head'_iff.mp hi
    rcases constants_or_closure hnext.lt hi with hconstants | ⟨a, b, hia, hab, hbi⟩
    · exact .inr fun hacyclic => hacyclic i hconstants
    · exact .inl ⟨a, b, hab, hbi.trans hia⟩
  · rintro (hclosure | hconstants)
    · exact hclosure.referenceCycle
    · exact referenceCycle_of_not_acyclic hconstants

end Graph

section Errors

variable {program : CompiledProgram} {protoIdx child : UInt16} {proto : FunctionProto}

/-- The checks of one prototype report no cycle. -/
theorem structuralChecks_ne_cycle :
    structuralChecks program protoIdx proto ≠ reject (.prototypeCycle child) := by
  intro h
  rw [structuralChecks, reject, Checks.forM_eq_error_iff] at h
  obtain ⟨-, ⟨instr, pc⟩, -, hx, -⟩ := h
  have hjump (off : Int16) : checkJumpTarget protoIdx pc off proto.code.length ≠
      .error (.raised (.prototypeCycle child)) := by
    unfold checkJumpTarget
    cases jumpTarget pc off proto.code.length <;> simp [reject]
  unfold structuralCheck at hx
  split at hx
  all_goals first
    | exact hjump _ hx
    | (split_ifs at hx <;> simp [reject] at hx)
    | simp at hx

theorem plainEdges_ne_cycle {codeLen pc d : Nat} {effect : Nat × Int} :
    .error (.raised (.prototypeCycle child)) ∉ plainEdges protoIdx codeLen pc d effect := by
  intro h
  unfold plainEdges at h
  by_cases hlt : d < effect.1
  · simp [hlt, reject] at h
  · rw [if_neg hlt] at h
    cases hd : applyDelta protoIdx pc d effect.2 with
    | error f =>
      rw [hd] at h
      obtain rfl := Except.error.inj (List.mem_singleton.mp h)
      simp only [applyDelta] at hd
      split_ifs at hd <;> simp [reject] at hd
    | ok dOut =>
      rw [hd] at h
      dsimp only at h
      split_ifs at h <;> simp at h

theorem jumpEdge_ne_cycle {pc d codeLen : Nat} {off : Int16} :
    .error (.raised (.prototypeCycle child)) ≠ jumpEdge pc off codeLen d := by
  unfold jumpEdge
  cases jumpTarget pc off codeLen <;> simp

theorem instrEdges_ne_cycle {codeLen pc d : Nat} {instr : Instruction} :
    .error (.raised (.prototypeCycle child)) ∉ instrEdges protoIdx codeLen pc d instr := by
  intro h
  unfold instrEdges at h
  cases instr with
  | jmp off => exact jumpEdge_ne_cycle (List.mem_singleton.mp h)
  | ret n | error | jmpIf off | jmpIfNot off | and off | or off | iterInitSorted off
  | iterInitArray off | iterNext off =>
    dsimp only at h
    split_ifs at h <;> simp [reject, jumpEdge_ne_cycle] at h
  | _ => exact plainEdges_ne_cycle h

theorem edges_ne_cycle {pc d : Nat} :
    .error (.raised (.prototypeCycle child)) ∉ edges protoIdx proto pc d := by
  unfold edges
  cases proto.code[pc]? with
  | none => simp
  | some instr => exact instrEdges_ne_cycle

theorem stackAnalysis_ne_cycle :
    stackAnalysis protoIdx proto ≠ reject (.prototypeCycle child) := by
  intro h
  by_cases hcode : proto.code = []
  · simp [stackAnalysis, stackDepths, hcode, reject, bind, Except.bind, pure, Except.pure] at h
  · have hpos : 0 < proto.code.length := List.length_pos_iff.mpr hcode
    have hrun : Worklist.run (analyze protoIdx proto) (proto.code.length + 1)
        (Worklist.State.start proto.code.length 0 0) = .error (.raised (.prototypeCycle child)) := by
      rw [← stackDepths_eq_run hcode]
      unfold stackAnalysis at h
      cases hd : stackDepths protoIdx proto with
      | error f =>
        rw [hd] at h
        exact congrArg Except.error (Except.error.inj h)
      | ok depths => rw [hd] at h; cases h
    rcases Worklist.run_raised analyze_eq_absorb (Worklist.ready_start hpos) hrun with
      ⟨pc, d, hedge⟩ | ⟨pc, old, new, hclash⟩
    · exact edges_ne_cycle hedge
    · cases hclash

theorem verifyProto_ne_cycle :
    verifyProto program protoIdx proto ≠ reject (.prototypeCycle child) := by
  intro h
  unfold verifyProto at h
  cases hs : structuralChecks program protoIdx proto with
  | error f =>
    rw [hs] at h
    exact structuralChecks_ne_cycle (hs.trans h)
  | ok u =>
    rw [hs] at h
    exact stackAnalysis_ne_cycle h

/-- A cycle is only reported for a program that has one. -/
theorem referenceCycle_of_reported (h : verify program = reject (.prototypeCycle child)) :
    ReferenceCycle program := by
  rcases checkProtoDag_cases program with ⟨-, hacyclic⟩ | ⟨-, hcycle⟩
  · rw [verify_eq_of_acyclic hacyclic, reject, Checks.forM_eq_error_iff] at h
    obtain ⟨-, entry, -, hentry, -⟩ := h
    exact absurd hentry verifyProto_ne_cycle
  · exact referenceCycle_of_not_acyclic hcycle

end Errors

section Rejection

variable {program : CompiledProgram}

/-- The search keeps the graph free of cycles as long as no closure lies on one. -/
theorem rejectsCycles_iff :
    RejectsCycles program ↔
      (ClosureOnCycle program → ¬Acyclic program ∨
        ∃ i proto, program.prototypes[i]? = some proto ∧ ¬ProtoOk program i proto) := by
  constructor
  · intro h hclosure
    by_contra hnot
    rw [not_or, not_not] at hnot
    refine h.accepted (verify_eq_ok_iff.mpr ⟨hnot.1, fun i proto hproto => ?_⟩)
      hclosure.referenceCycle
    by_contra hok
    exact hnot.2 ⟨i, proto, hproto, hok⟩
  · intro h
    refine ⟨fun hverify hcycle => ?_, fun child => referenceCycle_of_reported⟩
    obtain ⟨hacyclic, hall⟩ := verify_eq_ok_iff.mp hverify
    rcases referenceCycle_iff.mp hcycle with hclosure | hconstants
    · rcases h hclosure with hconstants | ⟨i, proto, hproto, hnot⟩
      · exact hconstants hacyclic
      · exact hnot (hall i proto hproto)
    · exact hconstants hacyclic

/-- A prototype whose code makes a closure of itself. -/
def selfClosure : FunctionProto := { FunctionProto.new 0 with code := [.closure 0, .ret 1] }

theorem selfClosure_accepted : ¬RejectsCycles ⟨[selfClosure]⟩ := by
  intro h
  have hverify : verify ⟨[selfClosure]⟩ = .ok () := by decide
  have hclosure : ClosureRef ⟨[selfClosure]⟩ 0 0 :=
    ⟨selfClosure, 0, rfl, List.mem_cons_self .., rfl⟩
  exact h.accepted hverify ⟨0, .single (.inl hclosure)⟩

end Rejection

section Search

variable (program : CompiledProgram)

/-- A constant of prototype `i` refers to a prototype `j` of the program. -/
def InRangeRef (i j : Nat) : Prop := ConstantRef program i j ∧ j < program.prototypes.length

def OnConstantCycle (i : Nat) : Prop := TransGen (InRangeRef program) i i

variable {program}

theorem onCycle_iff {i : Nat} :
    DepthFirst.OnCycle (program.prototypes.map protoRefs) i ↔ OnConstantCycle program i := by
  have hrel : DepthFirst.Edge (program.prototypes.map protoRefs) = InRangeRef program := by
    funext i j
    exact propext edge_iff
  rw [DepthFirst.OnCycle, OnConstantCycle, hrel]

/-- A prototype on a cycle is referred to by a 16-bit index. -/
theorem OnConstantCycle.toNat_ofNat {i : Nat} (h : OnConstantCycle program i) :
    (UInt16.ofNat i).toNat = i := by
  obtain ⟨j, -, ⟨proto, idx, -, -, rfl⟩, -⟩ := TransGen.tail'_iff.mp h
  rw [UInt16.ofNat_toNat]

theorem checkProtoDag_outcome (program : CompiledProgram) :
    (checkProtoDag program = .ok () ∧ ∀ i, ¬OnConstantCycle program i) ∨
      ∃ child : UInt16, checkProtoDag program = reject (.prototypeCycle child) ∧
        OnConstantCycle program child.toNat := by
  unfold checkProtoDag
  rcases DepthFirst.search_spec (program.prototypes.map protoRefs) with
    ⟨color, hsearch, hacyclic⟩ | ⟨child, hsearch, hcycle⟩
  · left
    rw [hsearch]
    exact ⟨rfl, fun i hi => hacyclic i (onCycle_iff.mpr hi)⟩
  · right
    have honcycle := onCycle_iff.mp hcycle
    rw [hsearch]
    refine ⟨.ofNat child, rfl, ?_⟩
    rw [honcycle.toNat_ofNat]
    exact honcycle

/-- The search ends without panic, finds a cycle if there is one, and names a prototype on it. -/
theorem checkProtoDag_finds_cycles (program : CompiledProgram) :
    ((∃ child, checkProtoDag program = reject (.prototypeCycle child)) ↔
      ∃ i, OnConstantCycle program i) ∧
    (checkProtoDag program = .ok () ∨
      ∃ child, checkProtoDag program = reject (.prototypeCycle child) ∧
        OnConstantCycle program child.toNat) := by
  rcases checkProtoDag_outcome program with ⟨hok, hacyclic⟩ | ⟨child, hreject, hcycle⟩
  · refine ⟨⟨?_, ?_⟩, .inl hok⟩
    · rintro ⟨child, hreject⟩
      rw [hok] at hreject
      cases hreject
    · rintro ⟨i, hi⟩
      exact absurd hi (hacyclic i)
  · exact ⟨⟨fun _ => ⟨_, hcycle⟩, fun _ => ⟨child, hreject⟩⟩, .inr ⟨child, hreject, hcycle⟩⟩

end Search

end Proveno.Verifier
