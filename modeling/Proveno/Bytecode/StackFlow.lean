import Proveno.Bytecode.Verifier
import Proveno.Lib.BreadthFirst
import Proveno.Lib.Checks

/-! The verifier as a flow analysis: where each instruction leads and with which depth,
and what it means that the checks succeed. -/

namespace Proveno.Verifier

open Worklist (Edge)

abbrev DepthEdge := Edge Nat VerifyError

def jumpEdge (pc : Nat) (off : Int16) (codeLen d : Nat) : DepthEdge :=
  match jumpTarget pc off codeLen with
  | some target => .ok (target, d)
  | none => .error .panicked

/-- The successor of an instruction that does not branch, if one follows it. -/
def plainEdges (protoIdx : UInt16) (codeLen pc d : Nat) (effect : Nat × Int) : List DepthEdge :=
  if d < effect.1 then [reject (.stackUnderflow protoIdx pc)]
  else match applyDelta protoIdx pc d effect.2 with
    | .error f => [.error f]
    | .ok dOut => if pc + 1 < codeLen then [.ok (pc + 1, dOut)] else []

/-- The successors of an instruction, in the order in which they are scheduled. -/
def instrEdges (protoIdx : UInt16) (codeLen pc d : Nat) (instr : Instruction) : List DepthEdge :=
  let underflow : List DepthEdge := [reject (.stackUnderflow protoIdx pc)]
  match instr with
  | .ret n => if d ≠ n.toNat then [reject (.retStackMismatch protoIdx pc n.toNat d)] else []
  | .error => if d < 1 then underflow else []
  | .jmp off => [jumpEdge pc off codeLen d]
  | .jmpIf off | .jmpIfNot off =>
    if d < 1 then underflow else [jumpEdge pc off codeLen (d - 1), .ok (pc + 1, d - 1)]
  | .and off | .or off =>
    if d < 1 then underflow else [jumpEdge pc off codeLen d, .ok (pc + 1, d)]
  | .iterInitSorted off | .iterInitArray off =>
    if d < 1 then underflow else [jumpEdge pc off codeLen (d - 1), .ok (pc + 1, d)]
  | .iterNext off =>
    if d < 1 then underflow
    else [jumpEdge pc off codeLen (d - 1),
      if maxStackDepth < d + 2 then reject (.stackOverflow protoIdx pc (d + 2))
      else .ok (pc + 1, d + 2)]
  | instr => plainEdges protoIdx codeLen pc d (stackEffect instr)

def edges (protoIdx : UInt16) (proto : FunctionProto) (pc d : Nat) : List DepthEdge :=
  match proto.code[pc]? with
  | none => [.error .panicked]
  | some instr => instrEdges protoIdx proto.code.length pc d instr

section Analyze

variable {protoIdx : UInt16} {proto : FunctionProto} {pc d : Nat} {s : Depths}

theorem absorb_jumpEdge (off : Int16) (codeLen : Nat) (rest : List DepthEdge) :
    Worklist.absorb (.stackDepthMismatch protoIdx) (jumpEdge pc off codeLen d :: rest) s =
      (orPanic (jumpTarget pc off codeLen) >>= fun target => schedule protoIdx target d s >>=
        Worklist.absorb (.stackDepthMismatch protoIdx) rest) := by
  unfold jumpEdge
  cases jumpTarget pc off codeLen <;> rfl

theorem absorb_reject (e : VerifyError) (rest : List DepthEdge) :
    Worklist.absorb (.stackDepthMismatch protoIdx) (reject e :: rest) = fun _ => reject e := rfl

theorem absorb_target (q d : Nat) (rest : List DepthEdge) :
    Worklist.absorb (.stackDepthMismatch protoIdx) (.ok (q, d) :: rest) s =
      (schedule protoIdx q d s >>= Worklist.absorb (.stackDepthMismatch protoIdx) rest) := rfl

theorem absorb_one (q d : Nat) :
    Worklist.absorb (.stackDepthMismatch protoIdx) [.ok (q, d)] = schedule protoIdx q d := by
  funext s
  rw [absorb_target]
  cases schedule protoIdx q d s <;> rfl

theorem absorb_jump (off : Int16) (codeLen : Nat) :
    Worklist.absorb (.stackDepthMismatch protoIdx) [jumpEdge pc off codeLen d] s =
      (orPanic (jumpTarget pc off codeLen) >>= fun target => schedule protoIdx target d s) := by
  unfold jumpEdge
  cases jumpTarget pc off codeLen with
  | none => rfl
  | some target => exact congrFun (absorb_one target d) s

theorem absorb_plain (protoIdx : UInt16) (pc d : Nat) (s : Depths) (codeLen : Nat) (effect : Nat × Int) :
    (if d < effect.1 then reject (.stackUnderflow protoIdx pc)
      else applyDelta protoIdx pc d effect.2 >>= fun dOut =>
        if pc + 1 < codeLen then schedule protoIdx (pc + 1) dOut s else .ok s) =
      Worklist.absorb (.stackDepthMismatch protoIdx)
        (plainEdges protoIdx codeLen pc d effect) s := by
  unfold plainEdges
  by_cases hd : d < effect.1
  · simp only [if_pos hd, absorb_reject]
  · simp only [if_neg hd]
    cases applyDelta protoIdx pc d effect.2 with
    | error f => rfl
    | ok dOut =>
      by_cases hpc : pc + 1 < codeLen
      · simp only [if_pos hpc, absorb_one]; rfl
      · simp only [if_neg hpc]; rfl

theorem analyzeInstr_eq_absorb (codeLen : Nat) (instr : Instruction) :
    analyzeInstr protoIdx codeLen pc d s instr =
      Worklist.absorb (.stackDepthMismatch protoIdx) (instrEdges protoIdx codeLen pc d instr) s := by
  have hplain := absorb_plain protoIdx pc d s codeLen (stackEffect instr)
  cases instr with
  | ret n =>
    unfold analyzeInstr instrEdges
    dsimp only
    split_ifs <;> rfl
  | error =>
    unfold analyzeInstr instrEdges
    dsimp only
    split_ifs <;> rfl
  | jmp off => exact (absorb_jump off codeLen).symm
  | jmpIf off | jmpIfNot off | and off | or off | iterInitSorted off | iterInitArray off =>
    unfold analyzeInstr instrEdges
    dsimp only
    split_ifs
    · rfl
    · simp only [absorb_jumpEdge, absorb_one]
  | iterNext off =>
    unfold analyzeInstr instrEdges
    dsimp only
    split_ifs
    · rfl
    · simp only [absorb_jumpEdge, absorb_reject]
    · simp only [absorb_jumpEdge, absorb_one]
  | _ => exact hplain

/-- A turn of the worklist schedules the successors of its instruction. -/
theorem analyze_eq_absorb (pc d : Nat) (s : Depths) (hpc : pc < proto.code.length) :
    analyze protoIdx proto pc d s =
      Worklist.absorb (.stackDepthMismatch protoIdx) (edges protoIdx proto pc d) s := by
  unfold analyze edges
  rw [List.getElem?_eq_getElem hpc]
  exact analyzeInstr_eq_absorb _ _

end Analyze

section Operands

variable {program : CompiledProgram} {protoIdx : UInt16} {proto : FunctionProto}

/-- The operand refers to something that the prototype has. -/
def InRange (program : CompiledProgram) (proto : FunctionProto) (pc : Nat) : Instruction → Prop
  | .pushK idx | .getField idx | .setField idx => idx.toNat < proto.constants.length
  | .closure idx => idx.toNat < program.prototypes.length
  | .loadUp idx | .storeUp idx => idx < proto.upvalueCount
  | .jmp off | .jmpIf off | .jmpIfNot off | .and off | .or off
  | .iterInitSorted off | .iterInitArray off | .iterNext off =>
    0 ≤ (pc : Int) + 1 + off.toInt ∧ (pc : Int) + 1 + off.toInt ≤ proto.code.length
  | _ => True

def OperandsInRange (program : CompiledProgram) (proto : FunctionProto) : Prop :=
  ∀ (pc : Nat) (instr : Instruction), proto.code[pc]? = some instr → InRange program proto pc instr

theorem jumpTarget_eq_some_iff {pc codeLen target : Nat} {off : Int16} :
    jumpTarget pc off codeLen = some target ↔
      (pc : Int) + 1 + off.toInt = target ∧ target ≤ codeLen := by
  simp only [jumpTarget]
  split_ifs with h
  · simp only [false_iff]
    omega
  · simp only [Option.some.injEq]
    omega

theorem jumpTarget_eq_none_iff {pc codeLen : Nat} {off : Int16} :
    jumpTarget pc off codeLen = none ↔
      ¬(0 ≤ (pc : Int) + 1 + off.toInt ∧ (pc : Int) + 1 + off.toInt ≤ codeLen) := by
  simp only [jumpTarget]
  split_ifs with h
  · simp only [true_iff]
    omega
  · simp only [false_iff, not_not]
    omega

theorem checkJumpTarget_cases (pc : Nat) (off : Int16) (codeLen : Nat) :
    checkJumpTarget protoIdx pc off codeLen = .ok () ∧
        0 ≤ (pc : Int) + 1 + off.toInt ∧ (pc : Int) + 1 + off.toInt ≤ codeLen ∨
      (∃ e, checkJumpTarget protoIdx pc off codeLen = reject e) ∧
        ¬(0 ≤ (pc : Int) + 1 + off.toInt ∧ (pc : Int) + 1 + off.toInt ≤ codeLen) := by
  unfold checkJumpTarget
  cases ht : jumpTarget pc off codeLen with
  | none => exact .inr ⟨⟨_, rfl⟩, jumpTarget_eq_none_iff.mp ht⟩
  | some target =>
    have := jumpTarget_eq_some_iff.mp ht
    exact .inl ⟨rfl, by omega⟩

theorem structuralCheck_cases (program : CompiledProgram) (protoIdx : UInt16)
    (proto : FunctionProto) (instr : Instruction) (pc : Nat) :
    structuralCheck program protoIdx proto instr pc = .ok () ∧ InRange program proto pc instr ∨
      (∃ e, structuralCheck program protoIdx proto instr pc = reject e) ∧
        ¬InRange program proto pc instr := by
  cases instr with
  | pushK idx | getField idx | setField idx =>
    by_cases h : proto.constants.length ≤ idx.toNat
    · exact .inr ⟨⟨_, if_pos h⟩, not_lt.mpr h⟩
    · exact .inl ⟨if_neg h, not_le.mp h⟩
  | closure idx =>
    by_cases h : program.prototypes.length ≤ idx.toNat
    · exact .inr ⟨⟨_, if_pos h⟩, not_lt.mpr h⟩
    · exact .inl ⟨if_neg h, not_le.mp h⟩
  | loadUp idx | storeUp idx =>
    by_cases h : proto.upvalueCount ≤ idx
    · exact .inr ⟨⟨_, if_pos h⟩, UInt8.not_lt.mpr h⟩
    · exact .inl ⟨if_neg h, UInt8.not_le.mp h⟩
  | jmp off | jmpIf off | jmpIfNot off | and off | or off | iterInitSorted off
  | iterInitArray off | iterNext off => exact checkJumpTarget_cases pc off proto.code.length
  | _ => exact .inl ⟨rfl, trivial⟩

theorem structuralChecks_eq_ok_iff :
    structuralChecks program protoIdx proto = .ok () ↔ OperandsInRange program proto := by
  rw [structuralChecks, Checks.forM_eq_ok_iff]
  constructor
  · intro h pc instr hpc
    rcases structuralCheck_cases program protoIdx proto instr pc with ⟨-, hrange⟩ | ⟨⟨e, he⟩, -⟩
    · exact hrange
    · have := h (instr, pc) (List.mem_zipIdx_iff_getElem?.mpr hpc)
      rw [he] at this
      cases this
  · rintro h ⟨instr, pc⟩ hmem
    have hpc := List.mem_zipIdx_iff_getElem?.mp hmem
    rcases structuralCheck_cases program protoIdx proto instr pc with ⟨hok, -⟩ | ⟨-, hnot⟩
    · exact hok
    · exact absurd (h pc instr hpc) hnot

theorem structuralChecks_error {f : Failure VerifyError}
    (h : structuralChecks program protoIdx proto = .error f) : ∃ e, f = .raised e := by
  rw [structuralChecks, Checks.forM_eq_error_iff] at h
  obtain ⟨-, ⟨instr, pc⟩, -, hx, -⟩ := h
  rcases structuralCheck_cases program protoIdx proto instr pc with ⟨hok, -⟩ | ⟨⟨e, he⟩, -⟩
  · rw [hok] at hx; cases hx
  · rw [he] at hx
    exact ⟨e, (Except.error.inj hx).symm⟩

end Operands

section Depths

variable {program : CompiledProgram} {protoIdx : UInt16} {proto : FunctionProto}

theorem applyDelta_error {pc d : Nat} {delta : Int} {f : Failure VerifyError}
    (h : applyDelta protoIdx pc d delta = .error f) : ∃ e, f = .raised e := by
  simp only [applyDelta] at h
  split_ifs at h
  · exact ⟨_, (Except.error.inj h).symm⟩
  · exact ⟨_, (Except.error.inj h).symm⟩

theorem jumpEdge_error (program : CompiledProgram) {pc d : Nat} {off : Int16} {f : Failure VerifyError}
    (h : .error f = jumpEdge pc off proto.code.length d) :
    f = .panicked ∧ ¬InRange program proto pc (.jmp off) := by
  unfold jumpEdge at h
  cases ht : jumpTarget pc off proto.code.length with
  | none => rw [ht] at h; exact ⟨Except.error.inj h, jumpTarget_eq_none_iff.mp ht⟩
  | some target => rw [ht] at h; cases h

theorem plainEdges_error {codeLen pc d : Nat} {effect : Nat × Int} {f : Failure VerifyError}
    (h : .error f ∈ plainEdges protoIdx codeLen pc d effect) : ∃ e, f = .raised e := by
  unfold plainEdges at h
  by_cases hlt : d < effect.1
  · rw [if_pos hlt] at h
    exact ⟨_, Except.error.inj (List.mem_singleton.mp h)⟩
  · rw [if_neg hlt] at h
    cases hd : applyDelta protoIdx pc d effect.2 with
    | error g =>
      rw [hd] at h
      obtain rfl : f = g := Except.error.inj (List.mem_singleton.mp h)
      exact applyDelta_error hd
    | ok dOut =>
      rw [hd] at h
      dsimp only at h
      split_ifs at h <;> simp at h

/-- A failing successor is an error of the verifier, or an invalid jump operand. -/
theorem instrEdges_error (program : CompiledProgram) {pc d : Nat} {instr : Instruction} {f : Failure VerifyError}
    (h : .error f ∈ instrEdges protoIdx proto.code.length pc d instr) :
    (∃ e, f = .raised e) ∨ f = .panicked ∧ ¬InRange program proto pc instr := by
  have hreject {e : VerifyError} (h : .error f = (reject e : DepthEdge)) : ∃ e, f = .raised e :=
    ⟨e, Except.error.inj h⟩
  cases instr with
  | ret n | error =>
    unfold instrEdges at h
    dsimp only at h
    split_ifs at h
    · exact .inl (hreject (List.mem_singleton.mp h))
    · simp at h
  | jmp off => exact .inr (jumpEdge_error program (List.mem_singleton.mp h))
  | jmpIf off | jmpIfNot off | and off | or off | iterInitSorted off | iterInitArray off =>
    unfold instrEdges at h
    dsimp only at h
    split_ifs at h
    · exact .inl (hreject (List.mem_singleton.mp h))
    · rcases List.mem_cons.mp h with h | h
      · exact .inr (jumpEdge_error program h)
      · simp at h
  | iterNext off =>
    unfold instrEdges at h
    dsimp only at h
    split_ifs at h
    · exact .inl (hreject (List.mem_singleton.mp h))
    · rcases List.mem_cons.mp h with h | h
      · exact .inr (jumpEdge_error program h)
      · exact .inl (hreject (List.mem_singleton.mp h))
    · rcases List.mem_cons.mp h with h | h
      · exact .inr (jumpEdge_error program h)
      · simp at h
  | _ => exact .inl (plainEdges_error h)

theorem edges_ne_outOfFuel (pc d : Nat) : .error .outOfFuel ∉ edges protoIdx proto pc d := by
  intro h
  unfold edges at h
  cases hpc : proto.code[pc]? with
  | none => simp [hpc] at h
  | some instr =>
    rw [hpc] at h
    rcases instrEdges_error ⟨[]⟩ h with ⟨e, he⟩ | ⟨he, -⟩ <;> cases he

theorem edges_error (hrange : OperandsInRange program proto) {pc d : Nat}
    (hpc : pc < proto.code.length) {f : Failure VerifyError}
    (h : .error f ∈ edges protoIdx proto pc d) : ∃ e, f = .raised e := by
  unfold edges at h
  rw [List.getElem?_eq_getElem hpc] at h
  rcases instrEdges_error program h with he | ⟨-, hnot⟩
  · exact he
  · exact absurd (hrange pc _ (List.getElem?_eq_getElem hpc)) hnot

theorem stackDepths_eq_run (hcode : proto.code ≠ []) :
    stackDepths protoIdx proto =
      Worklist.run (analyze protoIdx proto) (proto.code.length + 1)
        (Worklist.State.start proto.code.length 0 0) := by
  have hpos : 0 < proto.code.length := List.length_pos_iff.mpr hcode
  have hstart : schedule protoIdx 0 0 ⟨List.replicate proto.code.length none, []⟩ =
      .ok (Worklist.State.start proto.code.length 0 0) := by
    simp [schedule, Worklist.schedule, Worklist.State.start, hpos]
  rw [stackDepths, if_neg hpos.ne', hstart]
  rfl

/-- One depth for each instruction reached, on which all ways to it agree. -/
structure DepthsAgree (protoIdx : UInt16) (proto : FunctionProto) (depth : Nat → Option Nat) :
    Prop where
  entry : depth 0 = some 0
  step : ∀ pc d, depth pc = some d → ∀ e ∈ edges protoIdx proto pc d,
    ∃ q d', e = .ok (q, d') ∧ q < proto.code.length ∧ depth q = some d'

theorem depthsAgree_of_stackDepths (hcode : proto.code ≠ []) {depths : List (Option Nat)}
    (h : stackDepths protoIdx proto = .ok depths) :
    DepthsAgree protoIdx proto fun pc => depths[pc]?.join := by
  rw [stackDepths_eq_run hcode] at h
  have hpos : 0 < proto.code.length := List.length_pos_iff.mpr hcode
  obtain ⟨hlen, hkeep, hclosed⟩ := Worklist.run_closed analyze_eq_absorb
    (Worklist.ready_start hpos)
    (fun q d hq => List.mem_singleton.mpr ((Worklist.marked_start_iff hpos).mp hq)) h
  constructor
  · have := hkeep 0 0 ((Worklist.marked_start_iff hpos).mpr rfl)
    simp [this]
  · intro pc d hd e he
    obtain ⟨q, d', rfl, hq⟩ := hclosed pc d (Option.join_eq_some_iff.mp hd) e he
    exact ⟨q, d', rfl, hlen ▸ (List.getElem?_eq_some_iff.mp hq).1, by simp [hq]⟩

theorem stackDepths_of_depthsAgree (hcode : proto.code ≠ []) {depth : Nat → Option Nat}
    (h : DepthsAgree protoIdx proto depth) : ∃ depths, stackDepths protoIdx proto = .ok depths := by
  have hpos : 0 < proto.code.length := List.length_pos_iff.mpr hcode
  rw [stackDepths_eq_run hcode]
  have hcost : (Worklist.State.start proto.code.length 0 0).cost < proto.code.length + 1 := by
    rw [Worklist.cost_start hpos]
    omega
  have hentry (q d : Nat) (hq : (Worklist.State.start proto.code.length 0 0).Marked q d) :
      depth q = some d := by
    obtain ⟨rfl, rfl⟩ := Prod.mk.inj ((Worklist.marked_start_iff hpos).mp hq)
    exact h.entry
  have hedges (pc d : Nat) (hd : depth pc = some d) (e : DepthEdge)
      (he : e ∈ edges protoIdx proto pc d) :
      (∃ q d', e = .ok (q, d') ∧ q < proto.code.length ∧ depth q = some d') ∨
        ∃ f, e = .error f ∧ False := .inl (h.step pc d hd e he)
  have hrun := Worklist.run_allowed analyze_eq_absorb (Worklist.ready_start hpos) hcost
    (fun q d d' hd hd' => by simpa [hd] using hd') hentry hedges
  simpa using hrun

/-- The analysis succeeds exactly when the depths can be made to agree. -/
theorem stackAnalysis_eq_ok_iff (hcode : proto.code ≠ []) :
    stackAnalysis protoIdx proto = .ok () ↔ ∃ depth, DepthsAgree protoIdx proto depth := by
  have hok : stackAnalysis protoIdx proto = .ok () ↔
      ∃ depths, stackDepths protoIdx proto = .ok depths := by
    unfold stackAnalysis
    cases stackDepths protoIdx proto with
    | error f => exact iff_of_false (fun h => by cases h) (by simp)
    | ok depths => exact iff_of_true rfl ⟨depths, rfl⟩
  rw [hok]
  constructor
  · rintro ⟨depths, h⟩
    exact ⟨_, depthsAgree_of_stackDepths hcode h⟩
  · rintro ⟨depth, h⟩
    exact stackDepths_of_depthsAgree hcode h

theorem stackAnalysis_panicked_iff (hcode : proto.code ≠ []) :
    stackAnalysis protoIdx proto = .error .panicked ↔
      Worklist.EscapesFirst (edges protoIdx proto) proto.code.length (0, 0) := by
  have hpos : 0 < proto.code.length := List.length_pos_iff.mpr hcode
  rw [← Worklist.run_panicked_iff analyze_eq_absorb hpos
    (Nat.lt_succ_self _) edges_ne_outOfFuel, ← stackDepths_eq_run hcode, stackAnalysis]
  cases stackDepths protoIdx proto with
  | error f => exact ⟨fun h => by cases h; rfl, fun h => by cases h; rfl⟩
  | ok depths => exact iff_of_false (fun h => by cases h) (fun h => by cases h)

theorem stackAnalysis_terminates : stackAnalysis protoIdx proto ≠ .error .outOfFuel := by
  by_cases hcode : proto.code = []
  · simp [stackAnalysis, stackDepths, hcode, bind, Except.bind, pure, Except.pure]
  · have hpos : 0 < proto.code.length := List.length_pos_iff.mpr hcode
    have hcost : (Worklist.State.start proto.code.length 0 0).cost < proto.code.length + 1 := by
      rw [Worklist.cost_start hpos]
      omega
    have hrun : stackDepths protoIdx proto ≠ .error .outOfFuel := by
      rw [stackDepths_eq_run hcode]
      exact Worklist.run_ne_outOfFuel analyze_eq_absorb (Worklist.ready_start hpos) hcost
        edges_ne_outOfFuel
    unfold stackAnalysis
    cases hd : stackDepths protoIdx proto with
    | error f =>
      intro h
      obtain rfl : f = .outOfFuel := Except.error.inj h
      exact hrun hd
    | ok depths => exact fun h => by cases h

end Depths

end Proveno.Verifier
