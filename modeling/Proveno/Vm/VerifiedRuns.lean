import Proveno.Bytecode.Totality
import Proveno.Vm.Turns

/-! Runs of verified programs: the depths that the verifier finds are the depths of the stack,
and a protected call takes the stack and the frames back to where they were. -/

namespace Proveno

namespace Verifier

variable {program : CompiledProgram} {protoIdx : UInt16} {proto : FunctionProto}

/-- The depth that the analysis of its prototype gives a position. -/
def depthAt (program : CompiledProgram) (idx pc : Nat) : Option Nat :=
  match program.prototypes[idx]? with
  | none => none
  | some proto =>
    match stackDepths (.ofNat idx) proto with
    | .ok depths => depths[pc]?.join
    | .error _ => none

theorem depthAt_agrees {idx : Nat} (hproto : program.prototypes[idx]? = some proto)
    (hok : ProtoOk program idx proto) (hcode : proto.code ≠ []) :
    DepthsAgree (.ofNat idx) proto (depthAt program idx) := by
  obtain ⟨depth, hdepth⟩ := hok.2.resolve_left hcode
  obtain ⟨depths, hdepths⟩ := stackDepths_of_depthsAgree hcode hdepth
  have heq : depthAt program idx = fun pc => depths[pc]?.join := by
    funext pc
    simp only [depthAt, hproto, hdepths]
  exact heq ▸ depthsAgree_of_stackDepths hcode hdepths

theorem lt_of_depthAt {idx pc d : Nat} (hproto : program.prototypes[idx]? = some proto)
    (hok : ProtoOk program idx proto) (hdepth : depthAt program idx pc = some d) :
    pc < proto.code.length := by
  by_cases hcode : proto.code = []
  · simp [depthAt, hproto, stackDepths, hcode] at hdepth
  · by_contra hpc
    have hout : .error .panicked ∈ edges (.ofNat idx) proto pc d := by
      rw [edges, List.getElem?_eq_none (not_lt.mp hpc)]
      exact List.mem_singleton_self _
    obtain ⟨q, d', he, -⟩ := (depthAt_agrees hproto hok hcode).step pc d hdepth _ hout
    cases he

/-- A jump that the analysis follows leads where the machine goes. -/
theorem jumpDest_of_jumpEdge (bits : Nat) {pc q d d' codeLen : Nat} {off : Int16}
    (h : jumpEdge pc off codeLen d = .ok (q, d')) :
    Instruction.jumpDest bits (pc + 1) off = q ∧ d' = d := by
  unfold jumpEdge at h
  cases htarget : jumpTarget pc off codeLen with
  | none =>
    rw [htarget] at h
    cases h
  | some target =>
    rw [htarget] at h
    cases h
    have heq := (jumpTarget_eq_some_iff.mp htarget).1
    refine ⟨?_, rfl⟩
    simp only [Instruction.jumpDest]
    split_ifs <;> omega

theorem applyDelta_eq_ok {pc d dOut : Nat} {delta : Int}
    (h : applyDelta protoIdx pc d delta = .ok dOut) :
    (dOut : Int) = d + delta ∧ dOut ≤ maxStackDepth := by
  simp only [applyDelta] at h
  split_ifs at h with hneg hover
  · cases h
  · cases h
  · rw [← Except.ok.inj h]
    exact ⟨Int.toNat_of_nonneg (not_lt.mp hneg), not_lt.mp hover⟩

/-- What holds of an instruction whose successors the analysis accepts. -/
structure Follows (depth : Nat → Option Nat) (bits codeLen pc d : Nat) (instr : Instruction) :
    Prop where
  needs : instr.pops ≤ d
  goes : ∀ pc' d', instr.Goes bits (pc + 1) d pc' d' → pc' < codeLen →
    depth pc' = some d' ∧ d' ≤ maxStackDepth

section Follow

variable {depth : Nat → Option Nat} {bits codeLen pc d : Nat}

/-- Every edge leads to a position with the depth that it brings. -/
def Accepted (depth : Nat → Option Nat) (es : List DepthEdge) : Prop :=
  ∀ e ∈ es, ∃ q d', e = .ok (q, d') ∧ depth q = some d'

theorem not_accepted_reject {e : VerifyError} {es : List DepthEdge} :
    ¬Accepted depth (reject e :: es) := by
  intro h
  obtain ⟨q, d', he, -⟩ := h _ (List.mem_cons_self ..)
  cases he

theorem Accepted.jump {off : Int16} {es : List DepthEdge}
    (h : Accepted depth (jumpEdge pc off codeLen d :: es)) :
    depth (Instruction.jumpDest bits (pc + 1) off) = some d := by
  obtain ⟨q, d', he, hq⟩ := h _ (List.mem_cons_self ..)
  obtain ⟨hdest, rfl⟩ := jumpDest_of_jumpEdge bits he
  exact hdest ▸ hq

theorem Accepted.next {q d' : Nat} {e : DepthEdge} (h : Accepted depth [e, .ok (q, d')]) :
    depth q = some d' := by
  obtain ⟨_, _, he, hq⟩ := h _ (List.mem_cons_of_mem _ (List.mem_singleton_self _))
  cases he
  exact hq

theorem follows_plain {instr : Instruction} {effect : Nat × Int}
    (heffect : effect = (instr.pops, (instr.pushes : Int) - instr.pops))
    (hgoes : ∀ pc' d', instr.Goes bits (pc + 1) d pc' d' →
      pc' = pc + 1 ∧ d' + instr.pops = d + instr.pushes)
    (h : Accepted depth (plainEdges protoIdx codeLen pc d effect)) :
    Follows depth bits codeLen pc d instr := by
  subst heffect
  unfold plainEdges at h
  dsimp only at h
  by_cases hneeds : d < instr.pops
  · rw [if_pos hneeds] at h
    exact absurd h not_accepted_reject
  rw [if_neg hneeds] at h
  cases hout : applyDelta protoIdx pc d ((instr.pushes : Int) - instr.pops) with
  | error f =>
    rw [hout] at h
    obtain ⟨_, _, he, -⟩ := h _ (List.mem_singleton_self _)
    cases he
  | ok dOut =>
    rw [hout] at h
    obtain ⟨hdOut, hbound⟩ := applyDelta_eq_ok hout
    refine ⟨not_lt.mp hneeds, fun pc' d' hstep hpc' => ?_⟩
    obtain ⟨rfl, hd'⟩ := hgoes pc' d' hstep
    dsimp only at h
    rw [if_pos hpc'] at h
    obtain ⟨_, _, he, hq⟩ := h _ (List.mem_singleton_self _)
    cases he
    obtain rfl : d' = dOut := by omega
    exact ⟨hq, hbound⟩

variable (protoIdx) in
theorem follows_of_accepted {instr : Instruction} (hd : d ≤ maxStackDepth)
    (h : Accepted depth (instrEdges protoIdx codeLen pc d instr)) :
    Follows depth bits codeLen pc d instr := by
  cases instr with
  | ret n =>
    unfold instrEdges at h
    dsimp only at h
    split_ifs at h with hn
    · exact absurd h not_accepted_reject
    · exact ⟨(not_not.mp hn).ge, fun _ _ hstep => hstep.elim⟩
  | error =>
    unfold instrEdges at h
    dsimp only at h
    split_ifs at h with hn
    · exact absurd h not_accepted_reject
    · exact ⟨not_lt.mp hn, fun _ _ hstep => hstep.elim⟩
  | jmp off =>
    refine ⟨Nat.zero_le _, fun pc' d' ⟨hpc, hd'⟩ _ => ?_⟩
    rw [hpc, hd']
    exact ⟨Accepted.jump h, hd⟩
  | jmpIf off | jmpIfNot off =>
    unfold instrEdges at h
    dsimp only at h
    split_ifs at h with hn
    · exact absurd h not_accepted_reject
    refine ⟨not_lt.mp hn, fun pc' d' ⟨hpc, hd'⟩ _ => ?_⟩
    obtain rfl : d' = d - 1 := by omega
    rcases hpc with rfl | rfl
    · exact ⟨h.next, by omega⟩
    · exact ⟨h.jump, by omega⟩
  | and off | or off =>
    unfold instrEdges at h
    dsimp only at h
    split_ifs at h with hn
    · exact absurd h not_accepted_reject
    refine ⟨not_lt.mp hn, fun pc' d' ⟨hpc, hd'⟩ _ => ?_⟩
    obtain rfl : d' = d := by omega
    rcases hpc with rfl | rfl
    · exact ⟨h.next, hd⟩
    · exact ⟨h.jump, hd⟩
  | iterInitSorted off | iterInitArray off =>
    unfold instrEdges at h
    dsimp only at h
    split_ifs at h with hn
    · exact absurd h not_accepted_reject
    refine ⟨not_lt.mp hn, fun pc' d' hstep _ => ?_⟩
    rcases hstep with ⟨rfl, rfl⟩ | ⟨rfl, hd'⟩
    · exact ⟨h.next, hd⟩
    · obtain rfl : d' = d - 1 := by omega
      exact ⟨h.jump, by omega⟩
  | iterNext off =>
    unfold instrEdges at h
    dsimp only at h
    split_ifs at h with hn hover
    · exact absurd h not_accepted_reject
    · obtain ⟨_, _, he, -⟩ := h _ (List.mem_cons_of_mem _ (List.mem_singleton_self _))
      cases he
    refine ⟨not_lt.mp hn, fun pc' d' hstep _ => ?_⟩
    rcases hstep with ⟨rfl, rfl⟩ | ⟨rfl, hd'⟩
    · exact ⟨h.next, not_lt.mp hover⟩
    · obtain rfl : d' = d - 1 := by omega
      exact ⟨h.jump, by omega⟩
  | concat n | call argc | pcall argc =>
    refine follows_plain (?_ : stackEffect _ = _) (fun _ _ hstep => hstep) h
    refine Prod.ext rfl ?_
    unfold stackEffect Instruction.pops Instruction.pushes
    dsimp only
    omega
  | _ => exact follows_plain rfl (fun _ _ hstep => hstep) h

end Follow

theorem follows_of_verified (hverify : verify program = .ok ()) (bits : Nat) {idx pc d : Nat}
    {instr : Instruction} (hproto : program.prototypes[idx]? = some proto)
    (hinstr : proto.code[pc]? = some instr) (hdepth : depthAt program idx pc = some d)
    (hd : d ≤ maxStackDepth) :
    Follows (depthAt program idx) bits proto.code.length pc d instr := by
  have hcode : proto.code ≠ [] := by
    intro hnil
    rw [hnil] at hinstr
    cases hinstr
  have hok := (verify_eq_ok_iff.mp hverify).2 idx proto hproto
  have hagrees := depthAt_agrees hproto hok hcode
  refine follows_of_accepted (.ofNat idx) hd fun e he => ?_
  have hmem : e ∈ edges (.ofNat idx) proto pc d := by
    rw [edges, hinstr]
    exact he
  obtain ⟨q, d', heq, -, hq⟩ := hagrees.step pc d hdepth e hmem
  exact ⟨q, d', heq, hq⟩

end Verifier

open Verifier

variable {program : CompiledProgram}

/-- The depths that the verifier finds, within its bound. -/
def Layout.ofVerified (hverify : verify program = .ok ()) (bits : Nat) : Layout program where
  depth idx pc := (depthAt program idx pc).filter (· ≤ maxStackDepth)
  exact := True
  bits
  entry := by
    intro idx proto hproto hcode
    have hok := (verify_eq_ok_iff.mp hverify).2 idx proto hproto
    rw [(depthAt_agrees hproto hok hcode).entry]
    rfl
  needs := by
    intro idx proto pc instr d hproto hinstr hd
    obtain ⟨hdepth, hbound⟩ := Option.filter_eq_some_iff.mp hd
    exact (follows_of_verified hverify bits hproto hinstr hdepth (of_decide_eq_true hbound)).needs
  goes := by
    intro idx proto pc instr d pc' d' hproto hinstr hd hgoes hpc'
    obtain ⟨hdepth, hbound⟩ := Option.filter_eq_some_iff.mp hd
    obtain ⟨hdepth', hbound'⟩ := (follows_of_verified hverify bits hproto hinstr hdepth
      (of_decide_eq_true hbound)).goes pc' d' hgoes hpc'
    exact ⟨d', Option.filter_eq_some_iff.mpr ⟨hdepth', decide_eq_true hbound'⟩, le_rfl, fun _ => rfl⟩

namespace Run

variable {H : Type} [HostInterface H]

/-- What the events of a run of a verified program say about its stack: at an instruction it is
as deep as the verifier says, and an instruction takes nothing off it but what is above the
locals of its frame. -/
def AtVerifiedDepth (program : CompiledProgram) : Event → Prop
  | .dispatch _ frames stack => ∃ f rest proto d, frames = f :: rest ∧
      program.prototypes[f.protoIdx]? = some proto ∧ depthAt program f.protoIdx f.pc = some d ∧
      d ≤ maxStackDepth ∧ stack.length = f.base + proto.localCount.toNat + d
  | .pop frames k => ∃ f rest proto, frames = f :: rest ∧
      program.prototypes[f.protoIdx]? = some proto ∧ f.base + proto.localCount.toNat ≤ k
  | _ => True

theorem execute_atVerifiedDepth (hverify : verify program = .ok ()) (input : LuaValue)
    (s : System H) :
    ∀ e ∈ ((execute program input).run s).2.history, AtVerifiedDepth program e := by
  intro e he
  have hgood := Layout.allGood_execute (.ofVerified hverify _) input s rfl e he
  cases e with
  | dispatch nested frames stack =>
    obtain ⟨f, rest, rfl, ⟨proto, a, hproto, hlength, hlive⟩, d, hd⟩ := hgood
    obtain ⟨hdepth, hbound⟩ := Option.filter_eq_some_iff.mp hd
    have hok := (verify_eq_ok_iff.mp hverify).2 f.protoIdx proto hproto
    obtain ⟨d', hd', -, hexact⟩ := hlive (lt_of_depthAt hproto hok hdepth)
    obtain rfl : d = d' := Option.some.inj (hd.symm.trans hd')
    rw [← hexact trivial] at hlength
    exact ⟨f, rest, proto, d, rfl, hproto, hdepth, of_decide_eq_true hbound, hlength⟩
  | pop frames k => exact hgood
  | _ => trivial

/-- A program that makes a protected call of nil. -/
def nilCall : CompiledProgram :=
  ⟨[{ FunctionProto.new 0 with code := [.pushNil, .pcall 0, .ret 2] }]⟩

theorem execute_atVerifiedDepth_nilCall :
    verify nilCall = .ok () ∧
      ∀ e ∈ ((execute nilCall .nil).run (.limited 4)).2.history, AtVerifiedDepth nilCall e :=
  ⟨by decide, execute_atVerifiedDepth (by decide) .nil (.limited 4)⟩

end Run

end Proveno
