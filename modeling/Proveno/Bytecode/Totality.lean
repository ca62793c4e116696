import Proveno.Bytecode.StackFlow

/-! When the verifier returns. It always ends, but a flow edge that leaves the code
makes it panic. -/

namespace Proveno.Verifier

/-- No prototype refers to itself through constants. -/
def Acyclic (program : CompiledProgram) : Prop :=
  ∀ i, ¬DepthFirst.OnCycle (program.prototypes.map protoRefs) i

/-- What the checks of one prototype ask for. -/
def ProtoOk (program : CompiledProgram) (protoIdx : Nat) (proto : FunctionProto) : Prop :=
  OperandsInRange program proto ∧
    (proto.code = [] ∨ ∃ depth, DepthsAgree (.ofNat protoIdx) proto depth)

/-- Going through the code breadth first, a jump or a fall-through that leaves it comes
before any error. -/
def RunsOff (program : CompiledProgram) (protoIdx : Nat) (proto : FunctionProto) : Prop :=
  OperandsInRange program proto ∧ proto.code ≠ [] ∧
    Worklist.EscapesFirst (edges (.ofNat protoIdx) proto) proto.code.length (0, 0)

/-- The first prototype that fails its checks runs off its code. -/
def RunsOffFirst (program : CompiledProgram) : Prop :=
  Acyclic program ∧ ∃ i proto, program.prototypes[i]? = some proto ∧ RunsOff program i proto ∧
    ∀ j < i, ∀ earlier, program.prototypes[j]? = some earlier → ProtoOk program j earlier

def Returns {α : Type} (r : Check α) : Prop := (∃ a, r = .ok a) ∨ ∃ e, r = reject e

theorem returns_iff {α : Type} {r : Check α} :
    Returns r ↔ r ≠ .error .panicked ∧ r ≠ .error .outOfFuel := by
  rcases r with (e | - | -) | a <;> simp [Returns, reject]

section

variable {program : CompiledProgram}

theorem checkProtoDag_cases (program : CompiledProgram) :
    checkProtoDag program = .ok () ∧ Acyclic program ∨
      (∃ e, checkProtoDag program = reject e) ∧ ¬Acyclic program := by
  unfold checkProtoDag
  rcases DepthFirst.search_spec (program.prototypes.map protoRefs) with
    ⟨color, hsearch, hacyclic⟩ | ⟨child, hsearch, hcycle⟩
  · rw [hsearch]
    exact .inl ⟨rfl, hacyclic⟩
  · rw [hsearch]
    exact .inr ⟨⟨_, rfl⟩, fun h => h child hcycle⟩

theorem verifyProto_eq_ok_iff {i : Nat} {proto : FunctionProto} :
    verifyProto program (.ofNat i) proto = .ok () ↔ ProtoOk program i proto := by
  unfold verifyProto ProtoOk
  rw [← structuralChecks_eq_ok_iff]
  cases hs : structuralChecks program (.ofNat i) proto with
  | error f => exact iff_of_false (fun h => by cases h) (fun h => by cases h.1)
  | ok u =>
    simp only [true_and]
    by_cases hcode : proto.code = []
    · simp [stackAnalysis, stackDepths, hcode, bind, Except.bind, pure, Except.pure]
    · rw [or_iff_right hcode, ← stackAnalysis_eq_ok_iff hcode]
      rfl

theorem verifyProto_panicked_iff {i : Nat} {proto : FunctionProto} :
    verifyProto program (.ofNat i) proto = .error .panicked ↔ RunsOff program i proto := by
  unfold verifyProto RunsOff
  rw [← structuralChecks_eq_ok_iff]
  cases hs : structuralChecks program (.ofNat i) proto with
  | error f =>
    obtain ⟨e, rfl⟩ := structuralChecks_error hs
    exact iff_of_false (fun h => by cases h) (fun h => by cases h.1)
  | ok u =>
    simp only [true_and]
    by_cases hcode : proto.code = []
    · simp [stackAnalysis, stackDepths, hcode, bind, Except.bind, pure, Except.pure]
    · rw [and_iff_right hcode, ← stackAnalysis_panicked_iff hcode]
      rfl

theorem verifyProto_terminates (protoIdx : UInt16) (proto : FunctionProto) :
    verifyProto program protoIdx proto ≠ .error .outOfFuel := by
  unfold verifyProto
  cases hs : structuralChecks program protoIdx proto with
  | error f =>
    obtain ⟨e, rfl⟩ := structuralChecks_error hs
    exact fun h => by cases h
  | ok u => exact stackAnalysis_terminates

theorem verify_eq_of_acyclic (h : Acyclic program) :
    verify program =
      program.prototypes.zipIdx.forM fun entry => verifyProto program (.ofNat entry.2) entry.1 := by
  rcases checkProtoDag_cases program with ⟨hdag, -⟩ | ⟨-, hnot⟩
  · rw [verify, hdag]
    rfl
  · exact absurd h hnot

theorem verify_terminates (program : CompiledProgram) : verify program ≠ .error .outOfFuel := by
  rcases checkProtoDag_cases program with ⟨-, hacyclic⟩ | ⟨⟨e, hdag⟩, -⟩
  · rw [verify_eq_of_acyclic hacyclic, Ne, Checks.forM_eq_error_iff]
    rintro ⟨-, entry, -, hentry, -⟩
    exact verifyProto_terminates _ _ hentry
  · rw [verify, hdag]
    exact fun h => by cases h

theorem verify_panicked_iff : verify program = .error .panicked ↔ RunsOffFirst program := by
  rcases checkProtoDag_cases program with ⟨-, hacyclic⟩ | ⟨⟨e, hdag⟩, hcycle⟩
  · rw [verify_eq_of_acyclic hacyclic, Checks.forM_eq_error_iff, RunsOffFirst,
      and_iff_right hacyclic]
    simp only [List.getElem?_zipIdx, Option.map_eq_some_iff, Nat.zero_add]
    constructor
    · rintro ⟨i, -, ⟨proto, hget, rfl⟩, hpanic, hbefore⟩
      refine ⟨i, proto, hget, verifyProto_panicked_iff.mp hpanic, fun j hj earlier hearlier => ?_⟩
      exact verifyProto_eq_ok_iff.mp (hbefore j hj _ ⟨earlier, hearlier, rfl⟩)
    · rintro ⟨i, proto, hget, hoff, hbefore⟩
      refine ⟨i, _, ⟨proto, hget, rfl⟩, verifyProto_panicked_iff.mpr hoff, ?_⟩
      rintro j hj - ⟨earlier, hearlier, rfl⟩
      exact verifyProto_eq_ok_iff.mpr (hbefore j hj earlier hearlier)
  · rw [verify, hdag]
    exact iff_of_false (fun h => by cases h) (fun h => hcycle h.1)

theorem verify_eq_ok_iff : verify program = .ok () ↔
    Acyclic program ∧ ∀ i proto, program.prototypes[i]? = some proto → ProtoOk program i proto := by
  rcases checkProtoDag_cases program with ⟨-, hacyclic⟩ | ⟨⟨e, hdag⟩, hcycle⟩
  · rw [verify_eq_of_acyclic hacyclic, Checks.forM_eq_ok_iff, and_iff_right hacyclic]
    constructor
    · intro h i proto hproto
      exact verifyProto_eq_ok_iff.mp (h (proto, i) (List.mem_zipIdx_iff_getElem?.mpr hproto))
    · rintro h ⟨proto, i⟩ hentry
      exact verifyProto_eq_ok_iff.mpr (h i proto (List.mem_zipIdx_iff_getElem?.mp hentry))
  · rw [verify, hdag]
    exact iff_of_false (fun h => by cases h) fun h => hcycle h.1

/-- The verifier returns exactly when no prototype runs off its code first. -/
theorem verify_returns_iff : Returns (verify program) ↔ ¬RunsOffFirst program := by
  rw [returns_iff, ← verify_panicked_iff]
  exact and_iff_left (verify_terminates program)

end

def jumpPastEnd : FunctionProto := { FunctionProto.new 0 with code := [.jmp 0] }

theorem verify_not_total : ¬∀ program : CompiledProgram, Returns (verify program) := by
  intro h
  have : verify ⟨[jumpPastEnd]⟩ = .error .panicked := by decide
  exact (returns_iff.mp (h _)).1 this

end Proveno.Verifier
