import Proveno.Bytecode.StackFlow
import Proveno.Lib.AnyOrder

/-! What the stack analysis computes, stated on the control flow alone: one depth for each
instruction that the entry reaches. -/

namespace Proveno.Verifier

def branches : Instruction → Bool
  | .jmp _ | .jmpIf _ | .jmpIfNot _ | .and _ | .or _
  | .iterInitSorted _ | .iterInitArray _ | .iterNext _ => true
  | _ => false

/-- The operands that an instruction declares. -/
def operands : Instruction → Nat
  | .ret _ | .jmp _ => 0
  | .error | .jmpIf _ | .jmpIfNot _ | .and _ | .or _
  | .iterInitSorted _ | .iterInitArray _ | .iterNext _ => 1
  | instr => (stackEffect instr).1

def landing (pc : Nat) (off : Int16) : Nat := ((pc : Int) + 1 + off.toInt).toNat

/-- The ways on from an instruction: where they lead, and the change of the depth. -/
def successors (pc : Nat) : Instruction → List (Nat × Int)
  | .ret _ | .error => []
  | .jmp off => [(landing pc off, 0)]
  | .jmpIf off | .jmpIfNot off => [(landing pc off, -1), (pc + 1, -1)]
  | .and off | .or off => [(landing pc off, 0), (pc + 1, 0)]
  | .iterInitSorted off | .iterInitArray off => [(landing pc off, -1), (pc + 1, 0)]
  | .iterNext off => [(landing pc off, -1), (pc + 1, 2)]
  | instr => [(pc + 1, (stackEffect instr).2)]

/-- A path from the entry to a position, with the depth it arrives with. -/
inductive Arrives (proto : FunctionProto) : Nat → Int → Prop
  | entry : 0 < proto.code.length → Arrives proto 0 0
  | step {pc q : Nat} {d change : Int} {instr : Instruction} :
    Arrives proto pc d → proto.code[pc]? = some instr → (q, change) ∈ successors pc instr →
      q < proto.code.length → Arrives proto q (d + change)

def Reachable (proto : FunctionProto) (pc : Nat) : Prop := ∃ d, Arrives proto pc d

/-- One depth for each instruction reached, that every path arrives with, and that has the
operands of the instruction, no more than the stack may have, and what is returned. -/
structure Balanced (proto : FunctionProto) (depth : Nat → Nat) : Prop where
  arrives : ∀ pc d, Arrives proto pc d → d = depth pc
  operands : ∀ pc instr, Reachable proto pc → proto.code[pc]? = some instr →
    operands instr ≤ depth pc
  before : ∀ pc, Reachable proto pc → depth pc ≤ maxStackDepth
  after : ∀ pc instr, Reachable proto pc → proto.code[pc]? = some instr →
    ∀ s ∈ successors pc instr, depth pc + s.2 ≤ maxStackDepth
  returns : ∀ pc n, Reachable proto pc → proto.code[pc]? = some (.ret n) → depth pc = n.toNat

/-- The branches of the instructions reached, and what follows them, lie in the code. -/
def BranchesStay (proto : FunctionProto) : Prop :=
  ∀ pc instr, Reachable proto pc → proto.code[pc]? = some instr → branches instr →
    ∀ s ∈ successors pc instr, s.1 < proto.code.length

/-- The ends of the analysis when positions are taken from its worklist in any order. -/
def AnalysisEnds (protoIdx : UInt16) (proto : FunctionProto)
    (result : Check (List (Option Nat))) : Prop :=
  if proto.code.length = 0 then result = .ok []
  else Worklist.Ends (analyze protoIdx proto) (Worklist.State.start proto.code.length 0 0) result

/-- The analysis decides a property, and would in any order, which comes to an end. -/
structure Decides (protoIdx : UInt16) (proto : FunctionProto) (holds : Prop) : Prop where
  verdict : stackAnalysis protoIdx proto = .ok () ↔ holds
  arrival : AnalysisEnds protoIdx proto (stackDepths protoIdx proto)
  anyOrder : ∀ result, AnalysisEnds protoIdx proto result →
    ((∃ depths, result = .ok depths) ↔ holds)
  ends : proto.code ≠ [] → ∀ states,
    (Worklist.State.start proto.code.length 0 0 :: states).IsChain
      (fun s s' => Worklist.Turns (analyze protoIdx proto) s (.ok s')) →
    states.length ≤ proto.code.length

section Edges

variable {program : CompiledProgram} {protoIdx : UInt16} {proto : FunctionProto} {pc d : Nat}
  {instr : Instruction}

/-- An instruction that has its operands leaves no negative depth. -/
theorem stackEffect_nonneg (h : (stackEffect instr).1 ≤ d) : 0 ≤ (d : Int) + (stackEffect instr).2 := by
  cases instr <;> simp only [stackEffect] at h ⊢ <;> omega

theorem applyDelta_eq {delta : Int} (h0 : 0 ≤ (d : Int) + delta)
    (hmax : (d : Int) + delta ≤ maxStackDepth) :
    applyDelta protoIdx pc d delta = .ok ((d : Int) + delta).toNat := by
  simp only [applyDelta]
  rw [if_neg (by omega), if_neg (by omega)]

theorem applyDelta_ok {delta : Int} {dOut : Nat} (h : applyDelta protoIdx pc d delta = .ok dOut) :
    (d : Int) + delta ≤ maxStackDepth ∧ dOut = ((d : Int) + delta).toNat := by
  simp only [applyDelta] at h
  split_ifs at h with h0 hmax
  · cases h
  · cases h
  · exact ⟨by omega, (Except.ok.inj h).symm⟩

theorem jumpEdge_eq {off : Int16} {codeLen : Nat}
    (hrange : 0 ≤ (pc : Int) + 1 + off.toInt ∧ (pc : Int) + 1 + off.toInt ≤ codeLen) :
    jumpEdge pc off codeLen d = .ok (landing pc off, d) := by
  have htarget : jumpTarget pc off codeLen = some (landing pc off) :=
    jumpTarget_eq_some_iff.mpr (by unfold landing; omega)
  unfold jumpEdge
  rw [htarget]

theorem plainEdge_of_fits {codeLen : Nat} (hops : (stackEffect instr).1 ≤ d)
    (hmax : (d : Int) + (stackEffect instr).2 ≤ maxStackDepth) {e : DepthEdge}
    (he : e ∈ plainEdges protoIdx codeLen pc d (stackEffect instr)) :
    pc + 1 < codeLen ∧ e = .ok (pc + 1, ((d : Int) + (stackEffect instr).2).toNat) := by
  unfold plainEdges at he
  rw [if_neg (by omega), applyDelta_eq (stackEffect_nonneg hops) hmax] at he
  dsimp only at he
  split_ifs at he with hpc
  · exact ⟨hpc, List.mem_singleton.mp he⟩
  · cases he

/-- The edges of an instruction that is within its bounds are its successors. -/
theorem edge_of_fits (hrange : InRange program proto pc instr) (hops : operands instr ≤ d)
    (hmax : ∀ s ∈ successors pc instr, (d : Int) + s.2 ≤ maxStackDepth)
    (hret : ∀ n, instr = .ret n → d = n.toNat)
    (hstay : branches instr → ∀ s ∈ successors pc instr, s.1 < proto.code.length)
    {e : DepthEdge} (he : e ∈ instrEdges protoIdx proto.code.length pc d instr) :
    ∃ s ∈ successors pc instr, s.1 < proto.code.length ∧
      e = .ok (s.1, ((d : Int) + s.2).toNat) := by
  cases instr with
  | ret n =>
    have hn : d = n.toNat := hret n rfl
    unfold instrEdges at he
    simp [hn] at he
  | error =>
    have : 1 ≤ d := hops
    unfold instrEdges at he
    simp [show ¬d < 1 by omega] at he
  | jmp off =>
    have hlt := hstay rfl
    have hjump := jumpEdge_eq (d := d) hrange
    unfold instrEdges at he
    simp only [hjump, List.mem_singleton] at he
    exact ⟨_, List.mem_singleton_self _, hlt _ (List.mem_singleton_self _), by simpa using he⟩
  | jmpIf off | jmpIfNot off | and off | or off | iterInitSorted off | iterInitArray off =>
    have hpos : 1 ≤ d := hops
    have hlt := hstay rfl
    have hjump (d : Nat) := jumpEdge_eq (d := d) hrange
    have hback : ((d : Int) + -1).toNat = d - 1 := by omega
    unfold instrEdges at he
    simp only [show ¬d < 1 by omega, if_false, List.mem_cons, List.not_mem_nil,
      or_false] at he
    rcases he with rfl | rfl
    · exact ⟨_, .head _, hlt _ (.head _), by simp [hback, hjump]⟩
    · exact ⟨_, .tail _ (.head _), hlt _ (.tail _ (.head _)), by simp [hback]⟩
  | iterNext off =>
    have hpos : 1 ≤ d := hops
    have hlt := hstay rfl
    have hjump (d : Nat) := jumpEdge_eq (d := d) hrange
    have hback : ((d : Int) + -1).toNat = d - 1 := by omega
    have hroom : (d : Int) + 2 ≤ maxStackDepth := hmax (pc + 1, 2) (.tail _ (.head _))
    unfold instrEdges at he
    simp only [show ¬d < 1 by omega, show ¬maxStackDepth < d + 2 by omega, if_false,
      List.mem_cons, List.not_mem_nil, or_false] at he
    rcases he with rfl | rfl
    · exact ⟨_, .head _, hlt _ (.head _), by simp [hback, hjump]⟩
    · exact ⟨_, .tail _ (.head _), hlt _ (.tail _ (.head _)), by simp; omega⟩
  | _ =>
    have hroom := hmax (pc + 1, _) (List.mem_singleton_self _)
    obtain ⟨hlt, rfl⟩ := plainEdge_of_fits hops hroom he
    exact ⟨_, List.mem_singleton_self _, hlt, rfl⟩

theorem fits_of_plainEdges {codeLen : Nat}
    (hedges : ∀ e ∈ plainEdges protoIdx codeLen pc d (stackEffect instr), ∃ x, e = .ok x) :
    (stackEffect instr).1 ≤ d ∧ (d : Int) + (stackEffect instr).2 ≤ maxStackDepth ∧
      (pc + 1 < codeLen → .ok (pc + 1, ((d : Int) + (stackEffect instr).2).toNat) ∈
        plainEdges protoIdx codeLen pc d (stackEffect instr)) := by
  unfold plainEdges at hedges ⊢
  by_cases hlt : d < (stackEffect instr).1
  · rw [if_pos hlt] at hedges
    obtain ⟨x, hx⟩ := hedges _ (List.mem_singleton_self _)
    cases hx
  · rw [if_neg hlt] at hedges ⊢
    cases hd : applyDelta protoIdx pc d (stackEffect instr).2 with
    | error f =>
      rw [hd] at hedges
      obtain ⟨x, hx⟩ := hedges _ (List.mem_singleton_self _)
      cases hx
    | ok dOut =>
      obtain ⟨hmax, rfl⟩ := applyDelta_ok hd
      exact ⟨by omega, hmax, fun hpc => by simp [hpc]⟩

/-- Where no edge of an instruction fails, it is within its bounds. -/
theorem fits_of_edges (hrange : InRange program proto pc instr) (hd : d ≤ maxStackDepth)
    (hedges : ∀ e ∈ instrEdges protoIdx proto.code.length pc d instr, ∃ x, e = .ok x) :
    operands instr ≤ d ∧ (∀ n, instr = .ret n → d = n.toNat) ∧
      ∀ s ∈ successors pc instr, 0 ≤ (d : Int) + s.2 ∧ (d : Int) + s.2 ≤ maxStackDepth ∧
        (s.1 < proto.code.length →
          .ok (s.1, ((d : Int) + s.2).toNat) ∈ instrEdges protoIdx proto.code.length pc d instr) := by
  have hfails {e : VerifyError} (h : (reject e : DepthEdge) ∈
      instrEdges protoIdx proto.code.length pc d instr) : False := by
    obtain ⟨x, hx⟩ := hedges _ h
    cases hx
  cases instr with
  | ret n =>
    have hn : d = n.toNat := by
      by_contra hne
      exact hfails (e := .retStackMismatch protoIdx pc n.toNat d) (by unfold instrEdges; simp [hne])
    refine ⟨Nat.zero_le _, fun m hm => ?_, nofun⟩
    obtain rfl := Instruction.ret.inj hm
    exact hn
  | error =>
    have hpos : ¬d < 1 := fun hlt =>
      hfails (e := .stackUnderflow protoIdx pc) (by unfold instrEdges; simp [hlt])
    exact ⟨show 1 ≤ d by omega, nofun, nofun⟩
  | jmp off =>
    refine ⟨Nat.zero_le _, nofun, fun s hs => ?_⟩
    obtain rfl := List.mem_singleton.mp hs
    have hjump := jumpEdge_eq (d := d) hrange
    exact ⟨by simp, by simpa using hd, fun _ => by unfold instrEdges; simp [hjump]⟩
  | jmpIf off | jmpIfNot off | and off | or off | iterInitSorted off | iterInitArray off =>
    have hpos : ¬d < 1 := fun hlt =>
      hfails (e := .stackUnderflow protoIdx pc) (by unfold instrEdges; simp [hlt])
    have hjump (d : Nat) := jumpEdge_eq (d := d) hrange
    have hback : ((d : Int) + -1).toNat = d - 1 := by omega
    refine ⟨show 1 ≤ d by omega, nofun, fun s hs => ?_⟩
    unfold successors at hs
    simp only [List.mem_cons, List.not_mem_nil, or_false] at hs
    rcases hs with rfl | rfl
    · exact ⟨by dsimp only; omega, by dsimp only; omega, fun _ => by
        unfold instrEdges; simp [hpos, hback, hjump]⟩
    · exact ⟨by dsimp only; omega, by dsimp only; omega, fun _ => by
        unfold instrEdges; simp [hpos, hback]⟩
  | iterNext off =>
    have hpos : ¬d < 1 := fun hlt =>
      hfails (e := .stackUnderflow protoIdx pc) (by unfold instrEdges; simp [hlt])
    have hroom : ¬maxStackDepth < d + 2 := fun hlt =>
      hfails (e := .stackOverflow protoIdx pc (d + 2)) (by unfold instrEdges; simp [hpos, hlt])
    have hjump (d : Nat) := jumpEdge_eq (d := d) hrange
    have hback : ((d : Int) + -1).toNat = d - 1 := by omega
    have hpush : ((d : Int) + 2).toNat = d + 2 := by omega
    refine ⟨show 1 ≤ d by omega, nofun, fun s hs => ?_⟩
    unfold successors at hs
    simp only [List.mem_cons, List.not_mem_nil, or_false] at hs
    rcases hs with rfl | rfl
    · exact ⟨by dsimp only; omega, by dsimp only; omega, fun _ => by
        unfold instrEdges; simp [hpos, hback, hjump]⟩
    · exact ⟨by dsimp only; omega, by dsimp only; omega, fun _ => by
        unfold instrEdges; simp [hpos, hroom, hpush]⟩
  | _ =>
    obtain ⟨hops, hmax, hmem⟩ := fits_of_plainEdges hedges
    refine ⟨hops, nofun, fun s hs => ?_⟩
    obtain rfl := List.mem_singleton.mp hs
    exact ⟨stackEffect_nonneg hops, hmax, hmem⟩

end Edges

section Spec

variable {program : CompiledProgram} {protoIdx : UInt16} {proto : FunctionProto}

theorem Arrives.lt {pc : Nat} {d : Int} (h : Arrives proto pc d) : pc < proto.code.length := by
  cases h with
  | entry hpos => exact hpos
  | step _ _ _ hlt => exact hlt

/-- Every path arrives with the depth of the analysis. -/
theorem DepthsAgree.arrives (hrange : OperandsInRange program proto)
    {depth : Nat → Option Nat} (h : DepthsAgree protoIdx proto depth) {pc : Nat} {d : Int}
    (ha : Arrives proto pc d) : ∃ k : Nat, depth pc = some k ∧ d = k ∧ k ≤ maxStackDepth := by
  induction ha with
  | entry => exact ⟨0, h.entry, rfl, Nat.zero_le _⟩
  | @step pc q d change instr _ hinstr hsucc hq ih =>
    obtain ⟨k, hk, rfl, hmax⟩ := ih
    have hstep (e : DepthEdge) (he : e ∈ instrEdges protoIdx proto.code.length pc k instr) :=
      h.step pc k hk e (by rw [edges, hinstr]; exact he)
    obtain ⟨-, -, hall⟩ := fits_of_edges (hrange pc instr hinstr) hmax fun e he => by
      obtain ⟨q, d', rfl, -⟩ := hstep e he
      exact ⟨_, rfl⟩
    obtain ⟨h0, hroom, hmem⟩ := hall _ hsucc
    obtain ⟨q', d', heq, -, hdepth⟩ := hstep _ (hmem hq)
    obtain ⟨rfl, rfl⟩ := Prod.mk.inj (Except.ok.inj heq)
    exact ⟨_, hdepth, by omega, by omega⟩

theorem balanced_of_depthsAgree (hrange : OperandsInRange program proto)
    {depth : Nat → Option Nat} (h : DepthsAgree protoIdx proto depth) :
    Balanced proto fun pc => (depth pc).getD 0 := by
  have hreach {pc : Nat} (hr : Reachable proto pc) :
      ∃ k, depth pc = some k ∧ k ≤ maxStackDepth := by
    obtain ⟨d, ha⟩ := hr
    obtain ⟨k, hk, -, hmax⟩ := h.arrives hrange ha
    exact ⟨k, hk, hmax⟩
  have hfits {pc k : Nat} {instr : Instruction} (hk : depth pc = some k)
      (hmax : k ≤ maxStackDepth) (hinstr : proto.code[pc]? = some instr) :=
    fits_of_edges (hrange pc instr hinstr) hmax fun e (he : e ∈ instrEdges protoIdx ..) => by
      obtain ⟨q, d', rfl, -⟩ := h.step pc k hk e (by rw [edges, hinstr]; exact he)
      exact ⟨_, rfl⟩
  refine ⟨?_, ?_, ?_, ?_, ?_⟩
  · intro pc d ha
    obtain ⟨k, hk, rfl, -⟩ := h.arrives hrange ha
    simp [hk]
  · intro pc instr hr hinstr
    obtain ⟨k, hk, hmax⟩ := hreach hr
    simpa [hk] using (hfits hk hmax hinstr).1
  · intro pc hr
    obtain ⟨k, hk, hmax⟩ := hreach hr
    simpa [hk] using hmax
  · intro pc instr hr hinstr s hs
    obtain ⟨k, hk, hmax⟩ := hreach hr
    simpa [hk] using ((hfits hk hmax hinstr).2.2 s hs).2.1
  · intro pc n hr hinstr
    obtain ⟨k, hk, hmax⟩ := hreach hr
    simpa [hk] using (hfits hk hmax hinstr).2.1 n rfl

open Classical in
/-- The depths of the instructions reached are a table that the analysis can find. -/
theorem depthsAgree_of_balanced (hrange : OperandsInRange program proto)
    (hstay : BranchesStay proto) (hcode : proto.code ≠ []) {depth : Nat → Nat}
    (h : Balanced proto depth) : ∃ assigned, DepthsAgree protoIdx proto assigned := by
  have hentry : Arrives proto 0 0 := .entry (List.length_pos_iff.mpr hcode)
  refine ⟨fun pc => if Reachable proto pc then some (depth pc) else none, ?_, ?_⟩
  · have h0 := h.arrives 0 0 hentry
    rw [if_pos ⟨0, hentry⟩, Option.some.injEq]
    omega
  · intro pc d hd e he
    have hr : Reachable proto pc := by
      by_contra hnot
      simp [hnot] at hd
    rw [if_pos hr, Option.some.injEq] at hd
    subst hd
    obtain ⟨d, ha⟩ := hr
    have hinstr := List.getElem?_eq_getElem ha.lt
    obtain rfl := h.arrives pc d ha
    rw [edges, hinstr] at he
    have hr : Reachable proto pc := ⟨_, ha⟩
    obtain ⟨s, hs, hlt, rfl⟩ := edge_of_fits (hrange pc _ hinstr) (h.operands pc _ hr hinstr)
      (h.after pc _ hr hinstr) (fun n hn => h.returns pc n hr (by rw [hinstr, hn]))
      (hstay pc _ hr hinstr) he
    have hnext : Arrives proto s.1 (depth pc + s.2) := .step ha hinstr hs hlt
    have hdepth := h.arrives _ _ hnext
    refine ⟨s.1, _, rfl, hlt, ?_⟩
    rw [if_pos ⟨_, hnext⟩, Option.some.injEq]
    omega

theorem exists_depthsAgree_iff (hrange : OperandsInRange program proto)
    (hstay : BranchesStay proto) (hcode : proto.code ≠ []) :
    (∃ assigned, DepthsAgree protoIdx proto assigned) ↔ ∃ depth, Balanced proto depth :=
  ⟨fun ⟨_, h⟩ => ⟨_, balanced_of_depthsAgree hrange h⟩,
    fun ⟨_, h⟩ => depthsAgree_of_balanced hrange hstay hcode h⟩

theorem balanced_empty (hcode : proto.code = []) : Balanced proto fun _ => 0 := by
  have hnone (pc : Nat) (d : Int) (ha : Arrives proto pc d) : False := by
    simpa [hcode] using ha.lt
  have hr (pc : Nat) : ¬Reachable proto pc := fun ⟨d, ha⟩ => hnone pc d ha
  exact ⟨fun pc d ha => (hnone pc d ha).elim, fun pc _ h => absurd h (hr pc),
    fun pc h => absurd h (hr pc), fun pc _ h => absurd h (hr pc), fun pc _ h => absurd h (hr pc)⟩

theorem stackDepths_ends : AnalysisEnds protoIdx proto (stackDepths protoIdx proto) := by
  unfold AnalysisEnds
  split_ifs with hlen
  · simp [stackDepths, hlen]
  · have hpos : 0 < proto.code.length := Nat.pos_of_ne_zero hlen
    rw [stackDepths_eq_run (List.length_pos_iff.mp hpos)]
    refine Worklist.ends_run (Worklist.run_ne_outOfFuel analyze_eq_absorb
      (Worklist.ready_start hpos) ?_ edges_ne_outOfFuel)
    rw [Worklist.cost_start hpos]
    omega

theorem analysis_decides (hrange : OperandsInRange program proto) (hstay : BranchesStay proto) :
    Decides protoIdx proto (∃ depth, Balanced proto depth) := by
  by_cases hcode : proto.code = []
  · have hbalanced : ∃ depth, Balanced proto depth := ⟨_, balanced_empty hcode⟩
    refine ⟨iff_of_true ?_ hbalanced, stackDepths_ends, fun result hresult => ?_, fun hne => ?_⟩
    · simp [stackAnalysis, stackDepths, hcode, bind, Except.bind, pure, Except.pure]
    · rw [AnalysisEnds, if_pos (by simp [hcode])] at hresult
      exact iff_of_true ⟨_, hresult⟩ hbalanced
    · exact absurd hcode hne
  · have hpos : 0 < proto.code.length := List.length_pos_iff.mpr hcode
    have hiff : (∃ assigned, DepthsAgree protoIdx proto assigned) ↔ _ :=
      exists_depthsAgree_iff hrange hstay hcode
    rw [← hiff]
    refine ⟨stackAnalysis_eq_ok_iff hcode, stackDepths_ends, fun result hresult => ?_,
      fun _ states hchain => ?_⟩
    · rw [AnalysisEnds, if_neg hpos.ne'] at hresult
      rw [Worklist.ends_ok_iff analyze_eq_absorb hpos hresult]
      constructor
      · rintro ⟨_, h⟩
        exact ⟨_, h.start, h.along⟩
      · rintro ⟨_, h⟩
        exact ⟨_, h.entry, h.step⟩
    · have hle := Worklist.chain_length_le analyze_eq_absorb (Worklist.ready_start hpos) hchain
      rwa [Worklist.cost_start hpos] at hle

/-- The analysis succeeds exactly when the depths are balanced, in whatever order it takes
the positions that wait. -/
theorem stackAnalysis_spec (hchecks : structuralChecks program protoIdx proto = .ok ())
    (hstay : BranchesStay proto) : Decides protoIdx proto (∃ depth, Balanced proto depth) :=
  analysis_decides (structuralChecks_eq_ok_iff.mp hchecks) hstay

/-- A loop that tests its condition at the end. -/
def repeatLoop : FunctionProto := { FunctionProto.new 0 with code := [.pushTrue, .jmpIf (-2), .ret 0] }

theorem stackAnalysis_spec_repeatLoop :
    Decides 0 repeatLoop (∃ depth, Balanced repeatLoop depth) := by
  have hchecks : structuralChecks ⟨[repeatLoop]⟩ 0 repeatLoop = .ok () := by decide
  refine stackAnalysis_spec hchecks ?_
  intro pc instr _ hinstr hbranch s hs
  match pc with
  | 0 => cases hinstr; cases hbranch
  | 1 => cases hinstr; revert s; decide
  | 2 => cases hinstr; cases hbranch
  | _ + 3 => cases hinstr

end Spec

end Proveno.Verifier
